/-
What a client accepts, and what the optimizer takes it to accept.

`Codings` is a field value of the grammar: codings that are listed once each, with an
optional weight behind a semicolon that may have blanks on both sides.  The optimizer
takes what stands before the semicolon for the name, blanks included, so it does not
see a coding that has a blank there.  `Misread` lists the values in which this
changes what it sends.
-/
import AdaptiveGateway.Optimizer.FixedModes

namespace AdaptiveGateway

namespace Optimizer

open Codec Numeric Proxy
open Proxy (Request Response NetworkQuality)

/-! ## The grammar -/

/-- `OWS` -/
structure Blanks where
  text : Text
  blank : ∀ c ∈ text, c = ' ' ∨ c = '\t'

def isTchar (c : Char) : Bool :=
  isAsciiAlpha c || isAsciiDigit c || ("!#$%&'*+-.^_`|~" : Text).contains c

def digitChar (d : Fin 10) : Char := Char.ofNat (48 + d.val)

/-- `( "0" [ "." 0*3DIGIT ] ) / ( "1" [ "." 0*3("0") ] )` -/
inductive Qvalue where
  | zero (decimals : Option { ds : List (Fin 10) // ds.length ≤ 3 })
  | one (zeros : Option { n : Nat // n ≤ 3 })

namespace Qvalue

def text : Qvalue → Text
  | zero none => ['0']
  | zero (some ds) => '0' :: '.' :: ds.val.map digitChar
  | one none => ['1']
  | one (some n) => '1' :: '.' :: List.replicate n.val '0'

/-- The number behind a decimal point. -/
def fraction (ds : List (Fin 10)) : ℚ := ds.foldr (fun d x => (d.val + x) / 10) 0

def value : Qvalue → ℚ
  | zero none => 0
  | zero (some ds) => fraction ds.val
  | one _ => 1

end Qvalue

/-- `OWS ";" OWS "q=" qvalue`, where the letter may have either case. -/
structure Weight where
  before : Blanks
  after : Blanks
  upper : Bool
  qvalue : Qvalue

def Weight.text (w : Weight) : Text :=
  w.before.text ++ ';' :: (w.after.text ++ (if w.upper then 'Q' else 'q') :: '=' :: w.qvalue.text)

/-- A coding or `*`, with the blanks around it. -/
structure Element where
  lead : Blanks
  coding : Text
  coding_ne : coding ≠ []
  coding_token : coding.all isTchar = true
  weight : Option Weight
  trail : Blanks

namespace Element

/-- What stands between the blanks. -/
def core (e : Element) : Text := e.coding ++ (e.weight.map Weight.text).getD []

def text (e : Element) : Text := e.lead.text ++ e.core ++ e.trail.text

def name (e : Element) : Text := lower e.coding

def value (e : Element) : ℚ := (e.weight.map fun w => w.qvalue.value).getD 1

/-- A blank stands between the coding and the semicolon. -/
def spaced (e : Element) : Bool := !((e.weight.map fun w => w.before.text).getD []).isEmpty

end Element

/-- A value of `Accept-Encoding`. -/
structure Codings where
  elements : List Element
  distinct : (elements.map Element.name).Nodup

namespace Codings

def text (v : Codings) : Text := [','].intercalate (v.elements.map Element.text)

def find (v : Codings) (name : Text) : Option Element :=
  v.elements.find? fun e => decide (e.name = name)

/-- The weight of a coding: its own, else that of `*`, else the default. -/
def weight (v : Codings) (name : Text) (default : ℚ) : ℚ :=
  ((v.find name).map Element.value).getD (((v.find "*").map Element.value).getD default)

/-- A refused `gzip` is not seen and `*` is accepted. -/
def GzipMisread (v : Codings) : Prop :=
  ∃ g s, v.find "gzip" = some g ∧ g.spaced = true ∧ g.value = 0 ∧
    v.find "*" = some s ∧ s.spaced = false ∧ 0 < s.value

/-- A refused `identity` is not seen and nothing else refuses it, an accepted one is
not seen and `*` is refused, or the refused `*` that stands for it is not seen. -/
def IdentityMisread (v : Codings) : Prop :=
  (∃ i, v.find "identity" = some i ∧ i.spaced = true ∧ i.value = 0 ∧
    ∀ s, v.find "*" = some s → s.spaced = true ∨ 0 < s.value) ∨
  (∃ i s, v.find "identity" = some i ∧ i.spaced = true ∧ 0 < i.value ∧
    v.find "*" = some s ∧ s.spaced = false ∧ s.value = 0) ∨
  (v.find "identity" = none ∧ ∃ s, v.find "*" = some s ∧ s.spaced = true ∧ s.value = 0)

end Codings

/-! ## Weights -/

theorem Qvalue.fraction_bounds (ds : List (Fin 10)) :
    0 ≤ Qvalue.fraction ds ∧ Qvalue.fraction ds < 1 ∧
      (Qvalue.fraction ds = 0 ∨ (1 / 10) ^ ds.length ≤ Qvalue.fraction ds) := by
  induction ds with
  | nil => simp [Qvalue.fraction]
  | cons d ds ih =>
    obtain ⟨hlow, hhigh, hsmall⟩ := ih
    have hd : (d.val : ℚ) ≤ 9 := by exact_mod_cast Nat.le_of_lt_succ d.isLt
    have hstep : Qvalue.fraction (d :: ds) = (d.val + Qvalue.fraction ds) / 10 := rfl
    have hpow : ((1 : ℚ) / 10) ^ (d :: ds).length = (1 / 10) ^ ds.length / 10 := by
      rw [List.length_cons, pow_succ]
      ring
    have hone : ((1 : ℚ) / 10) ^ ds.length ≤ 1 := pow_le_one₀ (by norm_num) (by norm_num)
    rw [hstep, hpow]
    refine ⟨by positivity, by linarith, ?_⟩
    by_cases hzero : d.val = 0
    · rw [hzero, Nat.cast_zero, zero_add]
      rcases hsmall with hsmall | hsmall
      · exact .inl (by rw [hsmall, zero_div])
      · exact .inr (by linarith)
    · have hpos : (1 : ℚ) ≤ d.val := by exact_mod_cast Nat.one_le_iff_ne_zero.mpr hzero
      exact .inr (by linarith)

theorem Qvalue.value_bounds (q : Qvalue) :
    0 ≤ q.value ∧ q.value ≤ 1 ∧ (q.value = 0 ∨ 1 / 1000 ≤ q.value) := by
  match q with
  | .zero none => simp [Qvalue.value]
  | .one _ => simp [Qvalue.value]; norm_num
  | .zero (some ds) =>
    obtain ⟨hlow, hhigh, hsmall⟩ := Qvalue.fraction_bounds ds.val
    refine ⟨hlow, hhigh.le, hsmall.imp_right fun hsmall => ?_⟩
    have hpow : ((1 : ℚ) / 10) ^ 3 ≤ (1 / 10) ^ ds.val.length :=
      pow_le_pow_of_le_one (by norm_num) (by norm_num) ds.property
    show (1 : ℚ) / 1000 ≤ Qvalue.fraction ds.val
    calc (1 : ℚ) / 1000 = (1 / 10) ^ 3 := by norm_num
      _ ≤ (1 / 10) ^ ds.val.length := hpow
      _ ≤ Qvalue.fraction ds.val := hsmall

theorem Element.value_nonneg (e : Element) : 0 ≤ e.value := by
  rw [Element.value]
  cases e.weight with
  | none => exact zero_le_one
  | some w => exact w.qvalue.value_bounds.1

/-- The test of `_accepted_codings` tells the weight zero from the others. -/
theorem accepted_ofRat (q : Qvalue) :
    (Binary64.zero.lt (Binary64.ofRat q.value) && (Binary64.ofRat q.value).le Binary64.one) =
      decide (0 < q.value) := by
  obtain ⟨hlow, hhigh, hsmall⟩ := q.value_bounds
  have hzero : Binary64.ofRat 0 = Binary64.zero := Binary64.ofRat_eq _ _
  have hone : Binary64.ofRat 1 = Binary64.one := Binary64.ofRat_eq _ _
  have hle : (Binary64.ofRat q.value).le Binary64.one = true := hone ▸ Binary64.ofRat_mono hhigh
  rcases hsmall with hsmall | hsmall
  · rw [hsmall, hzero]
    decide
  · have hrep : Representable (1 / 1024) := ⟨1, -10, by norm_num, by norm_num, by norm_num⟩
    have hlimit : |(1 : ℚ) / 1024| < limit := by
      rw [abs_of_pos (by norm_num)]
      linarith [Binary64.one_lt_limit]
    have hmono : (Binary64.fin (1 / 1024) hrep hlimit).le (Binary64.ofRat q.value) = true := by
      rw [← Binary64.ofRat_eq]
      exact Binary64.ofRat_mono (by linarith)
    have hpos : Binary64.zero.le (Binary64.fin (1 / 1024) hrep hlimit) = true :=
      decide_eq_true (by norm_num)
    have hnot : (Binary64.ofRat q.value).le Binary64.zero = false := by
      rw [Bool.eq_false_iff]
      intro h
      have hmin := of_decide_eq_true (Binary64.le_of_le_of_le hmono h)
      norm_num at hmin
    rw [Binary64.lt, Binary64.le_of_le_of_le hpos hmono, hnot, hle, decide_eq_true (by linarith)]
    rfl

/-! ## Reading a value -/

theorem isTchar_facts {c : Char} (h : isTchar c = true) :
    isSpace (lowerChar c) = false ∧ lowerChar c ≠ ',' ∧ lowerChar c ≠ ';' := by
  have hall : ∀ n < 128, isTchar (Char.ofNat n) = true → isSpace (lowerChar (Char.ofNat n)) = false ∧
      lowerChar (Char.ofNat n) ≠ ',' ∧ lowerChar (Char.ofNat n) ≠ ';' := by
    decide +kernel
  have hc : c.toNat < 128 := by
    rw [isTchar, Bool.or_eq_true, Bool.or_eq_true] at h
    rcases h with (h | h) | h
    · have h := of_decide_eq_true h
      omega
    · have h := of_decide_eq_true h
      omega
    · have hmarks : ∀ c ∈ ("!#$%&'*+-.^_`|~" : Text), c.toNat < 128 := by
        intro c hc
        exact of_decide_eq_true (List.all_eq_true.mp
          (show ("!#$%&'*+-.^_`|~" : Text).all (fun c => decide (c.toNat < 128)) = true by decide) c hc)
      exact hmarks c (List.contains_iff_mem.mp h)
  simpa only [Char.ofNat_toNat] using hall c.toNat hc (by rwa [Char.ofNat_toNat])

/-- What stands between two blanks that are not part of it. -/
theorem strip_blanks {lead core trail : Text} (hlead : ∀ c ∈ lead, isSpace c = true)
    (htrail : ∀ c ∈ trail, isSpace c = true) (hhead : ∀ c ∈ core.head?, isSpace c = false)
    (hlast : ∀ c ∈ core.getLast?, isSpace c = false) (hcore : core ≠ []) :
    strip (lead ++ core ++ trail) = core := by
  have hdrop : ∀ t u : Text, (∀ c ∈ t, isSpace c = true) → (∀ c ∈ u.head?, isSpace c = false) →
      (t ++ u).dropWhile isSpace = u := by
    intro t u ht hu
    rw [List.dropWhile_append_of_pos ht]
    cases u with
    | nil => rfl
    | cons c u => rw [List.dropWhile_cons_of_neg (by rw [hu c rfl]; exact Bool.false_ne_true)]
  have hfront : (lead ++ (core ++ trail)).dropWhile isSpace = core ++ trail := by
    refine hdrop _ _ hlead fun c hc => hhead c ?_
    cases core with
    | nil => exact absurd rfl hcore
    | cons d core => exact hc
  have hback : (trail.reverse ++ core.reverse).dropWhile isSpace = core.reverse := by
    refine hdrop _ _ (fun c hc => htrail c (List.mem_reverse.mp hc)) fun c hc => hlast c ?_
    rwa [List.head?_reverse] at hc
  rw [strip, List.append_assoc, hfront, List.reverse_append, hback, List.reverse_reverse]

theorem Blanks.lower_text (b : Blanks) : lower b.text = b.text := by
  have hid : b.text.map lowerChar = b.text.map id :=
    List.map_congr_left fun c hc => by rcases b.blank c hc with rfl | rfl <;> rfl
  rw [lower, hid, List.map_id]

theorem Blanks.isSpace (b : Blanks) : ∀ c ∈ b.text, Codec.isSpace c = true := by
  intro c hc
  rcases b.blank c hc with rfl | rfl <;> rfl

theorem Blanks.not_mem (b : Blanks) {c : Char} (h : Codec.isSpace c = false) : c ∉ b.text := by
  intro hc
  rw [b.isSpace c hc] at h
  cases h

/-- Digits and the point. -/
def isQvalueChar (c : Char) : Bool := isAsciiDigit c || c == '.'

theorem isQvalueChar_facts {c : Char} (h : isQvalueChar c = true) :
    lowerChar c = c ∧ Codec.isSpace c = false ∧ c ≠ ',' ∧ c ≠ ';' ∧ c ≠ '=' := by
  have hall : ∀ n < 128, isQvalueChar (Char.ofNat n) = true →
      lowerChar (Char.ofNat n) = Char.ofNat n ∧ Codec.isSpace (Char.ofNat n) = false ∧
        Char.ofNat n ≠ ',' ∧ Char.ofNat n ≠ ';' ∧ Char.ofNat n ≠ '=' := by
    decide +kernel
  have hc : c.toNat < 128 := by
    rw [isQvalueChar, Bool.or_eq_true] at h
    rcases h with h | h
    · have h := of_decide_eq_true h
      omega
    · rw [beq_iff_eq.mp h]
      decide
  simpa only [Char.ofNat_toNat] using hall c.toNat hc (by rwa [Char.ofNat_toNat])

theorem Qvalue.text_ne (q : Qvalue) : q.text ≠ [] := by
  match q with
  | .zero none | .zero (some _) | .one none | .one (some _) => exact List.cons_ne_nil _ _

theorem Qvalue.text_chars (q : Qvalue) : ∀ c ∈ q.text, isQvalueChar c = true := by
  have hdigit : ∀ d : Fin 10, isQvalueChar (digitChar d) = true := by decide
  intro c hc
  match q with
  | .zero none | .one none =>
    rw [List.mem_singleton.mp hc]
    rfl
  | .zero (some ds) =>
    simp only [Qvalue.text, List.mem_cons, List.mem_map] at hc
    rcases hc with rfl | rfl | ⟨d, -, rfl⟩
    · rfl
    · rfl
    · exact hdigit d
  | .one (some n) =>
    simp only [Qvalue.text, List.mem_cons, List.mem_replicate] at hc
    rcases hc with rfl | rfl | ⟨-, rfl⟩ <;> rfl

theorem Qvalue.lower_text (q : Qvalue) : lower q.text = q.text := by
  have hid : q.text.map lowerChar = q.text.map id :=
    List.map_congr_left fun c hc => (isQvalueChar_facts (q.text_chars c hc)).1
  rw [lower, hid, List.map_id]

/-- A weight as `value.lower()` has it. -/
def Weight.lowered (w : Weight) : Text :=
  w.before.text ++ ';' :: (w.after.text ++ 'q' :: '=' :: w.qvalue.text)

theorem Weight.lower_text (w : Weight) : lower w.text = w.lowered := by
  have hq : lowerChar (if w.upper then 'Q' else 'q') = 'q' := by cases w.upper <;> rfl
  have hbefore := w.before.lower_text
  have hafter := w.after.lower_text
  have hqvalue := w.qvalue.lower_text
  simp only [lower] at hbefore hafter hqvalue
  simp only [Weight.text, Weight.lowered, lower, List.map_append, List.map_cons, hbefore, hafter,
    hqvalue, hq]
  rfl

namespace Element

variable (e : Element)

/-- The name under which the optimizer files the element. -/
def seenName : Text := e.name ++ (e.weight.map fun w => w.before.text).getD []

theorem name_chars : ∀ c ∈ e.name, Codec.isSpace c = false ∧ c ≠ ',' ∧ c ≠ ';' := by
  intro c hc
  obtain ⟨d, hd, rfl⟩ := List.mem_map.mp hc
  exact isTchar_facts (List.all_eq_true.mp e.coding_token d hd)

theorem name_ne : e.name ≠ [] := by
  intro h
  exact e.coding_ne (List.map_eq_nil_iff.mp h)

theorem lower_core : lower e.core = e.name ++ (e.weight.map Weight.lowered).getD [] := by
  rw [core, lower, List.map_append]
  cases hw : e.weight with
  | none => rfl
  | some w => exact congrArg (e.name ++ ·) w.lower_text

theorem lower_core_chars : ∀ c ∈ lower e.core, c ≠ ',' := by
  intro c hc
  rw [lower_core, List.mem_append] at hc
  rcases hc with hc | hc
  · exact (e.name_chars c hc).2.1
  · cases hw : e.weight with
    | none =>
      rw [hw] at hc
      cases hc
    | some w =>
      rw [hw] at hc
      simp only [Option.map_some, Option.getD_some, Weight.lowered, List.mem_append,
        List.mem_cons] at hc
      rcases hc with hc | rfl | hc | rfl | rfl | hc
      · rintro rfl
        exact w.before.not_mem rfl hc
      · decide
      · rintro rfl
        exact w.after.not_mem rfl hc
      · decide
      · decide
      · exact (isQvalueChar_facts (w.qvalue.text_chars c hc)).2.2.1

theorem strip_lower : strip (lower e.text) = lower e.core := by
  have hlower : lower e.text = e.lead.text ++ lower e.core ++ e.trail.text := by
    have hlead := e.lead.lower_text
    have htrail := e.trail.lower_text
    simp only [lower] at hlead htrail
    rw [text, lower, List.map_append, List.map_append, hlead, htrail, lower]
  have hname := e.name_ne
  rw [hlower]
  refine strip_blanks e.lead.isSpace e.trail.isSpace (fun c hc => ?_) (fun c hc => ?_) ?_
  · rw [lower_core, List.head?_append_of_ne_nil _ hname] at hc
    exact (e.name_chars c (List.mem_of_head? hc)).1
  · rw [lower_core] at hc
    cases hw : e.weight with
    | none =>
      rw [hw, Option.map_none, Option.getD_none, List.append_nil] at hc
      exact (e.name_chars c (List.mem_of_getLast? hc)).1
    | some w =>
      have hlast : (e.name ++ w.lowered).getLast? = w.qvalue.text.getLast? := by
        rw [Weight.lowered, List.getLast?_append_of_ne_nil _ (by simp),
          List.getLast?_append_of_ne_nil _ (by simp), List.getLast?_cons_of_ne_nil (by simp),
          List.getLast?_append_of_ne_nil _ (by simp), List.getLast?_cons_of_ne_nil (by simp),
          List.getLast?_cons_of_ne_nil w.qvalue.text_ne]
      rw [hw, Option.map_some, Option.getD_some, hlast] at hc
      exact (isQvalueChar_facts (w.qvalue.text_chars c (List.mem_of_getLast? hc))).2.1
  · rw [lower_core]
    exact fun h => hname (List.append_eq_nil_iff.mp h).1

theorem splitOn_core : splitOn ';' (lower e.core) = e.seenName ::
    (e.weight.map fun w => w.after.text ++ 'q' :: '=' :: w.qvalue.text).toList := by
  have hname : ';' ∉ e.name := fun h => (e.name_chars _ h).2.2 rfl
  rw [lower_core, seenName]
  cases hw : e.weight with
  | none =>
    show splitOn ';' (e.name ++ []) = [e.name ++ []]
    rw [List.append_nil, splitOn_of_not_mem hname]
  | some w =>
    have hbefore : ';' ∉ e.name ++ w.before.text := by
      rw [List.mem_append]
      exact fun h => h.elim hname (w.before.not_mem rfl)
    have hrest : ';' ∉ w.after.text ++ 'q' :: '=' :: w.qvalue.text := by
      simp only [List.mem_append, List.mem_cons, not_or]
      refine ⟨w.after.not_mem rfl, by decide, by decide, fun h => ?_⟩
      exact (isQvalueChar_facts (w.qvalue.text_chars _ h)).2.2.2.1 rfl
    show splitOn ';' (e.name ++ (w.before.text ++ ';' :: _)) = _
    rw [← List.append_assoc, splitOn_append hbefore, splitOn_of_not_mem hrest]
    rfl

variable {e} in
/-- A weight reads as its number, and its absence as one. -/
theorem read {py : Numbers} (hfloat : ∀ q : Qvalue, py.float q.text = some (.ofRat q.value)) :
    (let pieces := splitOn ';' (strip (lower e.text))
      let quality := codingQuality py pieces.tail
      (pieces.headD [], Binary64.zero.lt quality && quality.le Binary64.one)) =
        (e.seenName, decide (0 < e.value)) := by
  rw [strip_lower, splitOn_core, value]
  cases hw : e.weight with
  | none =>
    refine Prod.ext rfl ?_
    show (Binary64.zero.lt Binary64.one && Binary64.one.le Binary64.one) = decide ((0 : ℚ) < 1)
    decide
  | some w =>
    have hstrip : strip (w.after.text ++ 'q' :: '=' :: w.qvalue.text) =
        'q' :: '=' :: w.qvalue.text := by
      rw [← List.append_nil (w.after.text ++ _)]
      refine strip_blanks w.after.isSpace (by simp) (by simp; decide) (fun c hc => ?_)
        (List.cons_ne_nil _ _)
      rw [List.getLast?_cons_of_ne_nil (by simp),
        List.getLast?_cons_of_ne_nil w.qvalue.text_ne] at hc
      exact (isQvalueChar_facts (w.qvalue.text_chars c (List.mem_of_getLast? hc))).2.1
    have hpartition : partition '=' ('q' :: '=' :: w.qvalue.text) = (['q'], w.qvalue.text) := rfl
    have hquality : codingQuality py [w.after.text ++ 'q' :: '=' :: w.qvalue.text] =
        .ofRat w.qvalue.value := by
      simp only [codingQuality, List.foldl_cons, List.foldl_nil, hstrip, hpartition, hfloat,
        Option.getD_some]
      rfl
    show (e.seenName, Binary64.zero.lt (codingQuality py [_]) &&
      (codingQuality py [_]).le Binary64.one) = _
    rw [hquality, accepted_ofRat]
    rfl

end Element

/-! ## What the optimizer sees -/

theorem lower_join (ts : List Text) :
    lower ([','].intercalate ts) = [','].intercalate (ts.map lower) := by
  induction ts with
  | nil => rfl
  | cons t ts ih =>
    cases ts with
    | nil => simp [List.intercalate, lower]
    | cons u ts =>
      have hjoin : ∀ x y : Text, ∀ ys : List Text,
          [','].intercalate (x :: y :: ys) = x ++ ',' :: [','].intercalate (y :: ys) := by
        intro x y ys
        simp [List.intercalate]
      rw [List.map_cons] at ih ⊢
      rw [hjoin, List.map_cons, hjoin, ← ih]
      simp only [lower, List.map_append, List.map_cons]
      rfl

theorem Element.text_chars (e : Element) : ',' ∉ lower e.text := by
  have hlead := e.lead.lower_text
  have htrail := e.trail.lower_text
  have hcore := e.lower_core_chars
  simp only [lower] at hlead htrail hcore
  rw [Element.text, lower, List.map_append, List.map_append, hlead, htrail]
  simp only [List.mem_append, not_or]
  exact ⟨⟨e.lead.not_mem rfl, fun h => hcore _ h rfl⟩, e.trail.not_mem rfl⟩

/-- A name that a coding of a field value can have. -/
def Nameable (name : Text) : Prop := name ≠ [] ∧ ∀ c ∈ name, Codec.isSpace c = false

instance (name : Text) : Decidable (Nameable name) :=
  haveI := List.decidableBAll (fun c => Codec.isSpace c = false) name
  inferInstanceAs (Decidable (name ≠ [] ∧ ∀ c ∈ name, Codec.isSpace c = false))

theorem Element.seenName_eq_iff {e : Element} {name : Text} (h : Nameable name) :
    e.seenName = name ↔ e.name = name ∧ e.spaced = false := by
  rw [Element.seenName, Element.spaced]
  cases hw : e.weight with
  | none => simp
  | some w =>
    show e.name ++ w.before.text = name ↔ e.name = name ∧ (!w.before.text.isEmpty) = false
    rw [Bool.not_eq_false', List.isEmpty_iff]
    constructor
    · intro hname
      have hbefore : w.before.text = [] := by
        rw [List.eq_nil_iff_forall_not_mem]
        intro c hc
        have hspace := h.2 c (hname ▸ List.mem_append_right _ hc)
        rw [w.before.isSpace c hc] at hspace
        cases hspace
      rw [hbefore, List.append_nil] at hname
      exact ⟨hname, hbefore⟩
    · rintro ⟨rfl, hbefore⟩
      rw [hbefore, List.append_nil]

namespace Codings

/-- A name is listed at most once. -/
theorem filter_elements (v : Codings) (name : Text) :
    (v.elements.filter fun e => decide (e.name = name)) = (v.find name).toList := by
  have h : ∀ es : List Element, (es.map Element.name).Nodup →
      (es.filter fun e => decide (e.name = name)) =
        (es.find? fun e => decide (e.name = name)).toList := by
    intro es hes
    induction es with
    | nil => rfl
    | cons e es ih =>
      obtain ⟨hnew, hes⟩ := List.nodup_cons.mp hes
      by_cases he : e.name = name
      · have hnone : (es.filter fun e => decide (e.name = name)) = [] := by
          rw [List.filter_eq_nil_iff]
          intro f hf hname
          exact hnew (List.mem_map.mpr ⟨f, hf, (of_decide_eq_true hname).trans he.symm⟩)
        rw [List.filter_cons_of_pos (by simpa using he), hnone,
          List.find?_cons_of_pos (by simpa using he)]
        rfl
      · rw [List.filter_cons_of_neg (by simp [he]), List.find?_cons_of_neg (by simp [he]), ih hes]
  exact h v.elements v.distinct

variable {py : Numbers} (hfloat : ∀ q : Qvalue, py.float q.text = some (.ofRat q.value))
include hfloat

theorem acceptedCodings_eq {v : Codings} (h : v.elements ≠ []) :
    acceptedCodings py v.text =
      Dict.ofPairs (v.elements.map fun e => (e.seenName, decide (0 < e.value))) := by
  have hsplit : splitOn ',' (lower v.text) = v.elements.map fun e => lower e.text := by
    rw [text, lower_join, List.map_map]
    cases hes : v.elements with
    | nil => exact absurd hes h
    | cons e es =>
      rw [List.map_cons]
      refine splitOn_join e.text_chars fun u hu => ?_
      obtain ⟨f, -, rfl⟩ := List.mem_map.mp hu
      exact f.text_chars
  rw [acceptedCodings, hsplit, List.map_map]
  exact congrArg _ (List.map_congr_left fun e _ => Element.read hfloat)

/-- The optimizer finds a coding unless a blank stands behind it. -/
theorem get?_acceptedCodings (v : Codings) {name : Text} (h : Nameable name) :
    (acceptedCodings py v.text).get? name =
      ((v.find name).filter fun e => !e.spaced).map fun e => decide (0 < e.value) := by
  by_cases hes : v.elements = []
  · have htext : v.text = [] := by rw [text, hes]; rfl
    have hfind : v.find name = none := by rw [find, hes]; rfl
    have hpair : ([] : Text) ≠ name := Ne.symm h.1
    rw [htext, hfind]
    show Dict.lookup name [(([] : Text), _)] = none
    rw [Dict.lookup, if_neg hpair, Dict.lookup]
  · have hseen : (v.elements.filter fun e => decide (e.seenName = name)) =
        ((v.find name).filter fun e => !e.spaced).toList := by
      have hboth : (v.elements.filter fun e => decide (e.seenName = name)) =
          (v.elements.filter fun e => decide (e.name = name)).filter fun e => !e.spaced := by
        rw [List.filter_filter]
        refine List.filter_congr fun e _ => ?_
        rw [decide_eq_decide.mpr (Element.seenName_eq_iff h), Bool.decide_and, Bool.and_comm]
        cases e.spaced <;> rfl
      rw [hboth, filter_elements]
      cases v.find name with
      | none => rfl
      | some e => cases hspaced : e.spaced <;> simp [Option.filter, hspaced]
    have hvalues : Dict.values name (v.elements.map fun e => (e.seenName, decide (0 < e.value))) =
        (((v.find name).filter fun e => !e.spaced).toList).map fun e => decide (0 < e.value) := by
      rw [← hseen, Dict.values, List.filter_map, List.map_map]
      rfl
    rw [acceptedCodings_eq hfloat hes, Dict.get?_ofPairs, hvalues]
    cases (v.find name).filter fun e => !e.spaced <;> rfl

/-- Gzip is accepted although it is refused exactly where its refusal is misread. -/
theorem gzipMisread_iff (v : Codings) :
    acceptsGzip py v.text = true ∧ v.weight "gzip" 0 = 0 ↔ v.GzipMisread := by
  have hgzip : Nameable "gzip" := by decide
  have hstar : Nameable "*" := by decide
  rw [acceptsGzip, get?_acceptedCodings hfloat v hgzip, get?_acceptedCodings hfloat v hstar,
    weight, GzipMisread]
  cases v.find "gzip" with
  | none =>
    cases v.find "*" with
    | none => simp
    | some s =>
      cases hs : s.spaced with
      | true => simp [Option.filter, hs]
      | false => simp [Option.filter, hs]; exact fun h => h.ne'
  | some g =>
    cases hg : g.spaced with
    | false => simp [Option.filter, hg]; exact fun h => h.ne'
    | true =>
      cases v.find "*" with
      | none => simp [Option.filter, hg]
      | some s => cases hs : s.spaced <;> simp [Option.filter, hg, hs, and_comm]

/-- Identity is judged by its weight except where it is misread. -/
theorem identityMisread_iff (v : Codings) :
    (acceptsIdentity py v.text = true ↔ 0 < v.weight "identity" 1) ↔ ¬v.IdentityMisread := by
  have hidentity : Nameable "identity" := by decide
  have hstar : Nameable "*" := by decide
  have hpos : ∀ e : Element, e.value ≠ 0 ↔ 0 < e.value := fun e => e.value_nonneg.lt_iff_ne'.symm
  rw [acceptsIdentity, get?_acceptedCodings hfloat v hidentity,
    get?_acceptedCodings hfloat v hstar, weight, IdentityMisread]
  cases v.find "identity" with
  | none =>
    cases v.find "*" with
    | none => simp
    | some s => cases hs : s.spaced <;> simp [Option.filter, hs, hpos]
  | some i =>
    cases hi : i.spaced with
    | false => simp [Option.filter, hi]
    | true =>
      cases v.find "*" with
      | none => simp [Option.filter, hi, hpos]
      | some s =>
        cases hs : s.spaced with
        | true => simp [Option.filter, hi, hs, hpos]
        | false =>
          simp [Option.filter, hi, hs, ← hpos]
          tauto

omit hfloat in
theorem weight_nonneg (v : Codings) (name : Text) {default : ℚ} (h : 0 ≤ default) :
    0 ≤ v.weight name default := by
  rw [weight]
  cases v.find name with
  | some e => exact e.value_nonneg
  | none =>
    cases v.find "*" with
    | some e => exact e.value_nonneg
    | none => exact h

end Codings

/-! ## What is sent -/

/-- Every eligible response is answered with a coding that the client accepts, and with
a 406 where the body would go out as it is and the client does not accept that. -/
def Respects (lib : Libraries) (v : Codings) : Prop :=
  ∀ cfg req st r, r.rawHeaders.all latin1Field = true → (∀ e ∈ r.rawHeaders, LowerCase e.1) →
    eligible req st r = true → req.header "accept-encoding" = some v.text →
    ∃ out, dispatch lib cfg req st r = .ok out ∧
      (out.lines "content-encoding" = ["gzip"] → 0 < v.weight "gzip" 0) ∧
      (out.status = 200 → out.lines "content-encoding" = [] → 0 < v.weight "identity" 1) ∧
      (out.status = 406 ↔ (plan lib cfg req st r).gzipped = none ∧ v.weight "identity" 1 = 0)

/-- A read whose value of `Accept-Encoding` is given. -/
def codedRequest (v : Codings) : Request :=
  { mockRequest with headers := [("accept-encoding", v.text)] }

def jsonResponse (body : Bytes) : Response := ⟨200, [("content-type", "application/json")], body⟩

theorem jsonResponse_eligible (v : Codings) (body : Bytes) :
    eligible (codedRequest v) mockState (jsonResponse body) = true := rfl

theorem jsonResponse_names (body : Bytes) : ∀ e ∈ (jsonResponse body).rawHeaders, LowerCase e.1 := by
  intro e he
  rw [List.mem_singleton.mp he]
  decide

section

variable {lib : Libraries} {v : Codings}

theorem acceptsGzip_of_gzipped {cfg : Settings} {req : Request} {st : State} {r : Response}
    {b : Bytes} (h : (plan lib cfg req st r).gzipped = some b) :
    acceptsGzip lib.py ((req.header "accept-encoding").getD []) = true := by
  simp only [plan, gzip] at h
  split at h
  next hall =>
    simp only [Bool.and_eq_true] at hall
    exact hall.1.1.1.2
  next => cases h

theorem gzipped_full (req : Request) (st : State) (r : Response) :
    (plan lib { mockSettings with responseMode := .full } req st r).gzipped = none := rfl

theorem gzipped_compression {body : Bytes} (hsize : GZIP_MIN_SIZE ≤ body.length)
    (hshrinks : (lib.compress body).length < body.length)
    (haccepts : acceptsGzip lib.py v.text = true) :
    (plan lib { mockSettings with responseMode := .compression } (codedRequest v) mockState
      (jsonResponse body)).gzipped = some (lib.compress body) := by
  have hheader : (codedRequest v).header "accept-encoding" = some v.text := rfl
  have hreduce : reduce lib .compression .poor mockState body = body := rfl
  have huncoded := no_coding (jsonResponse_names body) (jsonResponse_eligible v body)
  show gzip lib .compression (codedRequest v) (jsonResponse body)
    (reduce lib .compression .poor mockState body) = _
  rw [hreduce, gzip, hheader, Option.getD_some, haccepts, huncoded, decide_eq_true hsize,
    decide_eq_true hshrinks]
  rfl

variable (hfloat : ∀ q : Qvalue, lib.py.float q.text = some (.ofRat q.value))
include hfloat

theorem respects_of_not_misread (hgzip : ¬v.GzipMisread) (hidentity : ¬v.IdentityMisread) :
    Respects lib v := by
  intro cfg req st r hlatin hnames he hvalue
  rw [← Codings.gzipMisread_iff hfloat, not_and] at hgzip
  rw [← Codings.identityMisread_iff hfloat] at hidentity
  have hzero : ∀ {name : Text} {default : ℚ}, 0 ≤ default → v.weight name default ≠ 0 →
      0 < v.weight name default :=
    fun h hne => lt_of_le_of_ne (v.weight_nonneg _ h) hne.symm
  obtain ⟨out, hout, ⟨hrefused, rfl⟩ | ⟨hnot, h200⟩⟩ := dispatch_total lib cfg hlatin hnames he
  · have hrefuses := hrefused.2.1
    rw [hvalue, Option.getD_some] at hrefuses
    refine ⟨refusal r, hout, fun hlines => ?_, fun hstatus => ?_, fun _ => ⟨hrefused.2.2, ?_⟩,
      fun _ => rfl⟩
    · cases hlines
    · cases hstatus
    · by_contra hne
      rw [hidentity.mpr (hzero zero_le_one hne)] at hrefuses
      cases hrefuses
  · have hlines := lines_coding hnames he hout h200
    cases hgz : (plan lib cfg req st r).gzipped with
    | some b =>
      have haccepts := acceptsGzip_of_gzipped hgz
      rw [hvalue, Option.getD_some] at haccepts
      rw [hgz, Option.isSome_some, if_pos rfl] at hlines
      refine ⟨out, hout, fun _ => hzero le_rfl (hgzip haccepts), fun _ hplain => ?_, fun h406 => ?_,
        fun h => ?_⟩
      · rw [hlines] at hplain
        cases hplain
      · rw [h200] at h406
        cases h406
      · cases h.1
    | none =>
      have haccepts : acceptsIdentity lib.py v.text = true := by
        by_contra hrefuses
        refine hnot ⟨he, ?_, hgz⟩
        rw [hvalue, Option.getD_some, Bool.eq_false_iff]
        exact hrefuses
      have hweight := hidentity.mp haccepts
      rw [hgz, Option.isSome_none, if_neg Bool.false_ne_true] at hlines
      refine ⟨out, hout, fun hcoded => ?_, fun _ _ => hweight, fun h406 => ?_, fun h => ?_⟩
      · rw [hlines] at hcoded
        cases hcoded
      · rw [h200] at h406
        cases h406
      · exact absurd h.2 hweight.ne'

/-- A misread refusal of gzip shows on a body that compression shortens. -/
theorem not_gzipMisread_of_respects (hshrinks : ∃ body, GZIP_MIN_SIZE ≤ body.length ∧
      (lib.compress body).length < body.length) (h : Respects lib v) : ¬v.GzipMisread := by
  intro hgzip
  obtain ⟨body, hsize, hshorter⟩ := hshrinks
  obtain ⟨haccepts, hzero⟩ := (Codings.gzipMisread_iff hfloat v).mpr hgzip
  have hnames := jsonResponse_names body
  have he := jsonResponse_eligible v body
  have hgz := gzipped_compression hsize hshorter haccepts
  obtain ⟨out, hout, hcoding, -, -⟩ := h _ _ _ _ rfl hnames he rfl
  obtain ⟨out', hout', hanswer⟩ := dispatch_total lib
    { mockSettings with responseMode := .compression } rfl hnames he
  rw [hout'] at hout
  cases hout
  rcases hanswer with ⟨hrefused, -⟩ | ⟨-, h200⟩
  · have hnone : (plan lib { mockSettings with responseMode := .compression } (codedRequest v)
        mockState (jsonResponse body)).gzipped = none := hrefused.2.2
    rw [hgz] at hnone
    cases hnone
  · have hlines := lines_coding hnames he hout' h200
    rw [hgz, Option.isSome_some, if_pos rfl] at hlines
    exact absurd hzero (hcoding hlines).ne'

/-- A misread identity shows on any body that is not compressed. -/
theorem not_identityMisread_of_respects (h : Respects lib v) : ¬v.IdentityMisread := by
  have hnames := jsonResponse_names []
  have he := jsonResponse_eligible v []
  have hnone : (plan lib { mockSettings with responseMode := .full } (codedRequest v) mockState
      (jsonResponse [])).gzipped = none := gzipped_full _ _ _
  obtain ⟨out, hout, -, hplain, hstatus⟩ := h _ _ _ _ rfl hnames he rfl
  obtain ⟨out', hout', hanswer⟩ := dispatch_total lib
    { mockSettings with responseMode := .full } rfl hnames he
  rw [hout'] at hout
  cases hout
  rw [← Codings.identityMisread_iff hfloat]
  rcases hanswer with ⟨hrefused, rfl⟩ | ⟨hnot, h200⟩
  · have hrefuses : acceptsIdentity lib.py v.text = false := hrefused.2.1
    rw [hrefuses, (hstatus.mp rfl).2]
    simp
  · have hlines := lines_coding hnames he hout' h200
    rw [hnone, Option.isSome_none, if_neg Bool.false_ne_true] at hlines
    refine ⟨fun _ => hplain h200 hlines, fun _ => ?_⟩
    by_contra hrefuses
    exact hnot ⟨he, Bool.eq_false_iff.mpr hrefuses, hnone⟩

/-- `Accept-Encoding` is respected exactly where no misread coding decides what is sent. -/
theorem respects_iff (hshrinks : ∃ body, GZIP_MIN_SIZE ≤ body.length ∧
      (lib.compress body).length < body.length) :
    Respects lib v ↔ ¬v.GzipMisread ∧ ¬v.IdentityMisread :=
  ⟨fun h => ⟨not_gzipMisread_of_respects hfloat hshrinks h,
    not_identityMisread_of_respects hfloat h⟩, fun h => respects_of_not_misread hfloat h.1 h.2⟩

end

/-! ## The setting of the tests

Weights are read digit by digit, and three hundred zeros compress to what the library
makes of them. -/

def decimal (t : Text) : ℚ := t.foldr (fun c x => ((c.toNat - 48 : ℕ) + x) / 10) 0

def mockFloat : Text → Option Binary64
  | ['0'] => some (.ofRat 0)
  | ['1'] => some (.ofRat 1)
  | '0' :: '.' :: ds => some (.ofRat (decimal ds))
  | '1' :: '.' :: ds => some (.ofRat (1 + decimal ds))
  | _ => none

theorem mockFloat_qvalue (q : Qvalue) : mockFloat q.text = some (.ofRat q.value) := by
  match q with
  | .zero none | .one none => rfl
  | .zero (some ds) =>
    have hdecimal : ∀ ds : List (Fin 10), decimal (ds.map digitChar) = Qvalue.fraction ds := by
      have hdigit : ∀ d : Fin 10, (digitChar d).toNat - 48 = d.val := by decide
      intro ds
      induction ds with
      | nil => rfl
      | cons d ds ih =>
        show (((digitChar d).toNat - 48 : ℕ) + decimal (ds.map digitChar)) / 10 = _
        rw [ih, hdigit]
        rfl
    show some (Binary64.ofRat (decimal (ds.val.map digitChar))) = _
    rw [hdecimal]
    rfl
  | .one (some n) =>
    have hdecimal : ∀ n, decimal (List.replicate n '0') = 0 := by
      intro n
      induction n with
      | zero => rfl
      | succ n ih =>
        show ((('0'.toNat - 48 : ℕ) : ℚ) + decimal (List.replicate n '0')) / 10 = 0
        rw [ih, show '0'.toNat - 48 = 0 from rfl]
        norm_num
    show some (Binary64.ofRat (1 + decimal (List.replicate n.val '0'))) = _
    rw [hdecimal, add_zero]
    rfl

def mockZipped : Bytes :=
  [31, 139, 8, 0, 0, 0, 0, 0, 2, 3, 99, 96, 24, 5, 196, 2, 0, 210, 143, 52, 181, 44, 1, 0, 0]

def mockZeros : Bytes := List.replicate 300 0

def mockCompress (b : Bytes) : Bytes := if b = mockZeros then mockZipped else b

noncomputable def mockCoder : Libraries :=
  { mockLibraries with
    py := { mockNumbers with float := mockFloat }
    compress := mockCompress }

theorem mockCoder_shrinks : ∃ body, GZIP_MIN_SIZE ≤ body.length ∧
    (mockCoder.compress body).length < body.length := by
  have hzeros : mockZeros.length = 300 := List.length_replicate
  have hzipped : mockCompress mockZeros = mockZipped := by rw [mockCompress, if_pos rfl]
  have hshort : mockZipped.length = 25 := rfl
  refine ⟨mockZeros, by rw [hzeros, GZIP_MIN_SIZE]; omega, ?_⟩
  rw [show mockCoder.compress = mockCompress from rfl, hzipped, hzeros, hshort]
  omega

def noBlanks : Blanks := ⟨[], fun _ h => absurd h List.not_mem_nil⟩

def oneBlank : Blanks := ⟨[' '], fun _ h => .inl (List.mem_singleton.mp h)⟩

/-- `gzip;q=0, *;q=0.5` -/
def mockRefusedGzip : Codings where
  elements :=
    [⟨noBlanks, "gzip", by decide, by decide, some ⟨noBlanks, noBlanks, false, .zero none⟩, noBlanks⟩,
      ⟨oneBlank, "*", by decide, by decide,
        some ⟨noBlanks, noBlanks, false, .zero (some ⟨[5], by decide⟩)⟩, noBlanks⟩]
  distinct := by decide

/-- `identity ;q=0` -/
def mockSpacedIdentity : Codings where
  elements :=
    [⟨noBlanks, "identity", by decide, by decide, some ⟨oneBlank, noBlanks, false, .zero none⟩,
      noBlanks⟩]
  distinct := by decide

theorem respects_iff_refusedGzip :
    mockRefusedGzip.text = "gzip;q=0, *;q=0.5".toList ∧ Respects mockCoder mockRefusedGzip := by
  refine ⟨by decide, (respects_iff mockFloat_qvalue mockCoder_shrinks).mpr ⟨?_, ?_⟩⟩
  · rintro ⟨g, s, hg, hspaced, -⟩
    cases hg
    cases hspaced
  · rintro (⟨i, hi, -⟩ | ⟨i, s, hi, -⟩ | ⟨-, s, hs, hspaced, -⟩)
    · cases hi
    · cases hi
    · cases hs
      cases hspaced

/-- The client refuses the body as it is and still gets it. -/
theorem spacedIdentity_sent :
    mockSpacedIdentity.text = "identity ;q=0".toList ∧
      mockSpacedIdentity.weight "identity" 1 = 0 ∧ ¬Respects mockCoder mockSpacedIdentity := by
  refine ⟨by decide, rfl, fun h => ?_⟩
  refine not_identityMisread_of_respects mockFloat_qvalue h (.inl ⟨_, rfl, rfl, rfl, ?_⟩)
  intro s hs
  cases hs

end Optimizer

end AdaptiveGateway
