/-
List headers on one line and on two.

HTTP lets a sender split a list header into several lines.  The gateway reads the
lines of a request in three ways: `get` returns the first line of a name, the
forwarded map keeps the last one, and the names of all lines are filtered.  A
`Connection` or `Cache-Control` line that is split is therefore read only up to the
cut.  `split_line_unnoticed_iff` says when that makes a difference.
-/
import AdaptiveGateway.Proxy.Fields

namespace AdaptiveGateway
namespace Proxy

open Codec Cache

/-! ## The forwarded map -/

theorem get?_cleanHeaders_lines (connection : Text) (items : List (Text × Text)) (name : Text) :
    (cleanHeaders connection items).get? name =
      if dropped connection name = true then none else (Dict.values name items).getLast? := by
  show (Dict.ofPairs (items.filter fun e => !dropped connection e.1)).get? name = _
  rw [Dict.get?_ofPairs, Dict.values_filter (q := fun name => !dropped connection name) fun _ => rfl]
  cases dropped connection name <;> rfl

/-- The names that the gateway fills in itself. -/
def filledIn (r : Request) (name : Text) : Option Text :=
  if ("X-Network-Quality" : Text) = name then some r.networkQuality.value
  else if ("accept-encoding" : Text) = name then some ("identity" : Text)
  else if ("X-Forwarded-For" : Text) = name then some r.clientIp
  else none

def filledNames : List Text := ["X-Forwarded-For", "accept-encoding", "X-Network-Quality"]

theorem filledIn_of_not_mem {r : Request} {name : Text} (h : name ∉ filledNames) :
    filledIn r name = none := by
  have hne : ∀ n ∈ filledNames, n ≠ name := by
    rintro n hn rfl
    exact h hn
  unfold filledIn
  split
  next heq => exact absurd heq (hne _ (by decide))
  next =>
    split
    next heq => exact absurd heq (hne _ (by decide))
    next =>
      split
      next heq => exact absurd heq (hne _ (by decide))
      next => rfl

theorem filledIn_isSome {r : Request} {name : Text} (h : name ∈ filledNames) :
    (filledIn r name).isSome = true := by
  simp only [filledNames, List.mem_cons, List.not_mem_nil, or_false] at h
  rcases h with rfl | rfl | rfl <;> rfl

theorem get?_forwardHeaders (r : Request) (name : Text) :
    (forwardHeaders r).get? name =
      (filledIn r name).or (if name ∈ ownHeaders then none
        else (cleanHeaders ((r.header "connection").getD []) r.headers).get? name) := by
  rw [forwardHeaders, Dict.get?_set, Dict.get?_set, Dict.get?_set, Dict.get?_foldl_erase]
  unfold filledIn
  split
  · rfl
  · split
    · rfl
    · split
      · rfl
      · rw [Option.none_or]
        by_cases hown : name ∈ ownHeaders
        · rw [if_pos hown, if_pos hown]
        · rw [if_neg hown, if_neg hown]

/-! ## Splitting a line -/

/-- A field line with a list of at least two parts, and the lines around it. -/
structure ListLine where
  before : List (Text × Text)
  name : Text
  first : Text
  second : Text
  after : List (Text × Text)

namespace ListLine

def joined (x : ListLine) : List (Text × Text) :=
  x.before ++ (x.name, x.first ++ ',' :: ' ' :: x.second) :: x.after

def split (x : ListLine) : List (Text × Text) :=
  x.before ++ (x.name, x.first) :: (x.name, x.second) :: x.after

/-- The line is the one that `get` returns. -/
def Leads (x : ListLine) : Prop := ∀ e ∈ x.before, e.1 ≠ x.name

variable {x : ListLine} {name : Text}

theorem values_other (hname : name ≠ x.name) :
    Dict.values name x.joined = Dict.values name x.split := by
  have hskip : ∀ (v : Text) (es : List (Text × Text)),
      Dict.values name ((x.name, v) :: es) = Dict.values name es := by
    intro v es
    rw [Dict.values, List.filter_cons_of_neg (by simpa using Ne.symm hname)]
    rfl
  rw [joined, split, Dict.values_append, Dict.values_append, hskip, hskip, hskip]

theorem lookup_other (hname : name ≠ x.name) :
    Dict.lookup name x.joined = Dict.lookup name x.split := by
  rw [Dict.lookup_eq_head?, Dict.lookup_eq_head?, values_other hname]

theorem lookup_before {es : List (Text × Text)} {e : Text × Text} (fs : List (Text × Text))
    (he : e ∈ es) : Dict.lookup e.1 (es ++ fs) = Dict.lookup e.1 es := by
  obtain ⟨v, hv⟩ := Dict.exists_lookup_of_mem (k := e.1) (v := e.2) he
  rw [Dict.lookup_eq_head?] at hv ⊢
  rw [Dict.values_append, Dict.lookup_eq_head?, List.head?_append, hv]
  rfl

theorem lookup_leads (h : x.Leads) (v : Text) (es : List (Text × Text)) :
    Dict.lookup x.name (x.before ++ (x.name, v) :: es) = some v := by
  have hnone : Dict.values x.name x.before = [] := by
    rw [Dict.values, List.map_eq_nil_iff, List.filter_eq_nil_iff]
    intro e he heq
    exact h e he (of_decide_eq_true heq)
  rw [Dict.lookup_eq_head?, Dict.values_append, hnone]
  simp [Dict.values]

/-- A line behind another one of its name is not looked at. -/
theorem lookup_of_not_leads (h : ¬x.Leads) :
    Dict.lookup x.name x.joined = Dict.lookup x.name x.split := by
  simp only [Leads, not_forall, not_not] at h
  obtain ⟨e, he, hname⟩ := h
  rw [joined, split, ← hname, lookup_before _ he, lookup_before _ he]

end ListLine

/-! ## What the lines say -/

/-- A `Cache-Control` line with one of the directives that bypass the cache. -/
def bypasses (line : Text) : Bool :=
  [("no-cache" : Text), "no-store", "max-age=0"].any fun value => hasSubstring value (lower line)

theorem bypasses_join (first second : Text) :
    bypasses (first ++ ',' :: ' ' :: second) = (bypasses first || bypasses second) := by
  have hlower : lower (first ++ ',' :: ' ' :: second) = lower first ++ ',' :: ' ' :: lower second := by
    rw [lower, List.map_append]
    rfl
  have hone : ∀ value ∈ [("no-cache" : Text), "no-store", "max-age=0"],
      hasSubstring value (lower first ++ ',' :: ' ' :: lower second) =
        (hasSubstring value (lower first) || hasSubstring value (lower second)) := by
    intro value hvalue
    have hplain : ∀ value ∈ [("no-cache" : Text), "no-store", "max-age=0"],
        ',' ∉ value ∧ ' ' ∉ value ∧ value ≠ [] ∧ hasSubstring value [] = false := by decide
    obtain ⟨hcomma, hspace, hne, hempty⟩ := hplain value hvalue
    have hblank := hasSubstring_append_sep hspace hne [] (lower second)
    rw [hasSubstring_append_sep hcomma hne, ← List.nil_append (' ' :: lower second), hblank, hempty,
      Bool.false_or]
  simp only [bypasses, hlower, List.any_cons, List.any_nil, Bool.or_false]
  rw [hone _ (by simp), hone _ (by simp), hone _ (by simp)]
  cases hasSubstring _ (lower first) <;> cases hasSubstring _ (lower first) <;>
    cases hasSubstring _ (lower first) <;> simp

theorem nominates_join {first second name : Text} :
    Nominates (first ++ ',' :: ' ' :: second) name ↔ Nominates first name ∨ Nominates second name := by
  have hblank : (splitOn ',' (' ' :: second)).map (fun part => lower (strip part)) =
      (splitOn ',' second).map fun part => lower (strip part) := by
    rw [splitOn, if_neg (by decide)]
    cases hsplit : splitOn ',' second with
    | nil => exact absurd hsplit (splitOn_ne_nil ',' second)
    | cons p ps =>
      show lower (strip (' ' :: p)) :: _ = _
      rw [strip_cons_of_isSpace (by decide)]
      rfl
  rw [Nominates, splitOn_append_sep, List.map_append, List.mem_append, hblank]
  rfl

/-- The names that a client cannot have forwarded, whatever it says about them. -/
def Shielded (name : Text) : Prop :=
  name ∈ HOP_BY_HOP ∨ name ∈ ownHeaders ∨ name = "accept-encoding"

/-- The request is tied to its sender or to a part of the resource. -/
def Personal (headers : List (Text × Text)) : Prop := ∃ e ∈ headers, e.1 ∈ privateHeaders

theorem cacheAllowed_eq_false {r : Request} :
    cacheAllowed r = false ↔
      Personal r.headers ∨ bypasses ((r.header "cache-control").getD []) = true := by
  have hpersonal : (privateHeaders.any fun name => (r.header name).isSome) = true ↔
      Personal r.headers := by
    rw [List.any_eq_true]
    constructor
    · rintro ⟨name, hname, hsome⟩
      obtain ⟨v, hv⟩ := Option.isSome_iff_exists.mp hsome
      exact ⟨(name, v), Dict.mem_of_lookup hv, hname⟩
    · rintro ⟨e, he, hname⟩
      obtain ⟨v, hv⟩ := Dict.exists_lookup_of_mem (k := e.1) (v := e.2) he
      exact ⟨e.1, hname, Option.isSome_iff_exists.mpr ⟨v, hv⟩⟩
  rw [← hpersonal]
  show (!_ && !bypasses _) = false ↔ _
  rw [Bool.and_eq_false_iff, Bool.not_eq_false', Bool.not_eq_false']

theorem cacheAllowed_congr {r r' : Request} (hpersonal : Personal r.headers ↔ Personal r'.headers)
    (hcontrol : bypasses ((r.header "cache-control").getD []) =
      bypasses ((r'.header "cache-control").getD [])) : cacheAllowed r = cacheAllowed r' := by
  have hfalse : cacheAllowed r = false ↔ cacheAllowed r' = false := by
    rw [cacheAllowed_eq_false, cacheAllowed_eq_false, hpersonal, hcontrol]
  revert hfalse
  cases cacheAllowed r <;> cases cacheAllowed r' <;> simp

theorem filledIn_eq_none {r : Request} {name : Text} (hlower : LowerCase name)
    (hencoding : name ≠ "accept-encoding") : filledIn r name = none := by
  refine filledIn_of_not_mem fun hmem => ?_
  have honly : ∀ n ∈ filledNames, LowerCase n → n = "accept-encoding" := by decide
  exact hencoding (honly name hmem hlower)

theorem values_ne_nil {name : Text} {es : List (Text × Text)} :
    Dict.values name es ≠ [] ↔ ∃ e ∈ es, e.1 = name := by
  rw [ne_eq, Dict.values, List.map_eq_nil_iff, List.filter_eq_nil_iff]
  simp only [decide_eq_true_eq, not_forall, not_not, exists_prop]

/-- What becomes of a client's header that has a lower-case name. -/
theorem forward_eq_none_iff {r : Request} {name : Text} (hlower : LowerCase name)
    (hencoding : name ≠ "accept-encoding") :
    (forwardHeaders r).get? name = none ↔ name ∈ ownHeaders ∨ name ∈ HOP_BY_HOP ∨
      Nominates ((r.header "connection").getD []) name ∨ ¬∃ e ∈ r.headers, e.1 = name := by
  rw [get?_forwardHeaders, filledIn_eq_none hlower hencoding, Option.none_or]
  by_cases hown : name ∈ ownHeaders
  · rw [if_pos hown]
    exact ⟨fun _ => Or.inl hown, fun _ => rfl⟩
  · rw [if_neg hown, get?_cleanHeaders_lines]
    have hdropped : dropped ((r.header "connection").getD []) name = true ↔
        name ∈ HOP_BY_HOP ∨ Nominates ((r.header "connection").getD []) name := by
      rw [dropped_iff, show lower name = name from hlower]
    by_cases hd : dropped ((r.header "connection").getD []) name = true
    · rw [if_pos hd]
      refine ⟨fun _ => Or.inr ?_, fun _ => rfl⟩
      exact (hdropped.mp hd).imp_right Or.inl
    · rw [if_neg hd, List.getLast?_eq_none_iff, ← values_ne_nil, not_not]
      obtain ⟨hhop, hnom⟩ := not_or.mp fun h => hd (hdropped.mpr h)
      exact ⟨fun h => Or.inr (Or.inr (Or.inr h)), fun h =>
        ((h.resolve_left hown).resolve_left hhop).resolve_left hnom⟩

/-- A name of which there is a line, and which nothing else holds back, is forwarded
unless the first `Connection` line nominates it. -/
theorem forwarded_iff {r : Request} {name : Text} (hlower : LowerCase name)
    (hshielded : ¬Shielded name) (hline : ∃ e ∈ r.headers, e.1 = name) :
    (forwardHeaders r).get? name = none ↔ Nominates ((r.header "connection").getD []) name := by
  rw [forward_eq_none_iff hlower fun h => hshielded (Or.inr (Or.inr h))]
  constructor
  · rintro (hown | hhop | hnom | hnone)
    · exact absurd (Or.inr (Or.inl hown)) hshielded
    · exact absurd (Or.inl hhop) hshielded
    · exact hnom
    · exact absurd hline hnone
  · exact fun hnom => Or.inr (Or.inr (Or.inl hnom))

/-! ## When the cut makes no difference -/

namespace ListLine

variable {x : ListLine}

/-- Both spellings lead to the same forwarded headers, apart from the line itself, and
to the same decision about the cache. -/
def Unnoticed (x : ListLine) (r : Request) : Prop :=
  (∀ name, name ≠ x.name → (forwardHeaders { r with headers := x.joined }).get? name =
    (forwardHeaders { r with headers := x.split }).get? name) ∧
  cacheAllowed { r with headers := x.joined } = cacheAllowed { r with headers := x.split }

/-- The second part is not looked at anyway, or says nothing that counts. -/
def CutHarmless (x : ListLine) : Prop :=
  x.Leads →
    (x.name = "connection" → ∀ name, Nominates x.second name →
      Nominates x.first name ∨ Shielded name ∨ ∀ e ∈ x.joined, e.1 ≠ name) ∧
    (x.name = "cache-control" → bypasses x.second = true →
      bypasses x.first = true ∨ Personal x.joined)

theorem names_split (P : Text → Prop) : (∃ e ∈ x.joined, P e.1) ↔ ∃ e ∈ x.split, P e.1 := by
  simp only [joined, split, List.mem_append, List.mem_cons, or_and_right, exists_or, exists_eq_left,
    or_self_left]

theorem header_joined (h : x.Leads) (r : Request) :
    Request.header { r with headers := x.joined } x.name =
      some (x.first ++ ',' :: ' ' :: x.second) := lookup_leads h _ _

theorem header_split (h : x.Leads) (r : Request) :
    Request.header { r with headers := x.split } x.name = some x.first := lookup_leads h _ _

theorem header_other (r : Request) {name : Text} (h : name ≠ x.name ∨ ¬x.Leads) :
    Request.header { r with headers := x.joined } name =
      Request.header { r with headers := x.split } name := by
  by_cases hname : name = x.name
  · subst hname
    exact lookup_of_not_leads (h.resolve_left fun hne => hne rfl)
  · exact lookup_other hname

/-- The forwarded map changes only through the `Connection` line that is read. -/
theorem forward_congr (r : Request) {name : Text} (hname : name ≠ x.name)
    (hdropped : (∃ e ∈ x.joined, e.1 = name) → filledIn r name = none → name ∉ ownHeaders →
      dropped ((Request.header { r with headers := x.joined } "connection").getD []) name =
        dropped ((Request.header { r with headers := x.split } "connection").getD []) name) :
    (forwardHeaders { r with headers := x.joined }).get? name =
      (forwardHeaders { r with headers := x.split }).get? name := by
  rw [get?_forwardHeaders, get?_forwardHeaders]
  show (filledIn r name).or _ = (filledIn r name).or _
  cases hfilled : filledIn r name with
  | some v => rfl
  | none =>
    rw [Option.none_or, Option.none_or]
    by_cases hown : name ∈ ownHeaders
    · rw [if_pos hown, if_pos hown]
    · rw [if_neg hown, if_neg hown, get?_cleanHeaders_lines, get?_cleanHeaders_lines]
      show _ = if _ then none else (Dict.values name x.split).getLast?
      rw [← values_other hname]
      by_cases hline : ∃ e ∈ x.joined, e.1 = name
      · rw [hdropped hline hfilled hown]
      · have hnone : Dict.values name x.joined = [] := by
          by_contra hne
          exact hline (values_ne_nil.mp hne)
        rw [hnone, List.getLast?_nil, ite_self, ite_self]

theorem connection_unnoticed_iff (r : Request) (hr : ∀ e ∈ x.joined, LowerCase e.1)
    (hname : x.name = "connection") : x.Unnoticed r ↔ x.CutHarmless := by
  have hcache : cacheAllowed { r with headers := x.joined } =
      cacheAllowed { r with headers := x.split } := by
    refine cacheAllowed_congr (names_split _) ?_
    rw [header_other r (Or.inl (by rw [hname]; decide))]
  by_cases hleads : x.Leads
  · have hjoined := header_joined hleads r
    have hsplit := header_split hleads r
    rw [hname] at hjoined hsplit
    constructor
    · intro hsame _
      refine ⟨fun _ name hsecond => ?_, fun hcontrol => ?_⟩
      · by_contra hnot
        simp only [not_or, not_forall, not_not] at hnot
        obtain ⟨hfirst, hshielded, e, he, rfl⟩ := hnot
        have hne : e.1 ≠ x.name := by
          rw [hname]
          exact fun heq => hshielded (Or.inl (heq ▸ by decide))
        have hgone := (forwarded_iff (r := { r with headers := x.joined }) (hr e he) hshielded
          ⟨e, he, rfl⟩).mpr (by
            rw [hjoined]
            exact nominates_join.mpr (Or.inr hsecond))
        rw [hsame.1 e.1 hne, forwarded_iff (hr e he) hshielded
          ((names_split (· = e.1)).mp ⟨e, he, rfl⟩), hsplit] at hgone
        exact hfirst hgone
      · rw [hname] at hcontrol
        exact absurd hcontrol (by decide)
    · intro hharmless
      refine ⟨fun name hother => forward_congr r hother fun hline hfilled hown => ?_, hcache⟩
      obtain ⟨e, he, rfl⟩ := hline
      have hlower : lower e.1 = e.1 := hr e he
      rw [hjoined, hsplit, Bool.eq_iff_iff, dropped_iff, dropped_iff, hlower]
      show _ ∨ Nominates (x.first ++ ',' :: ' ' :: x.second) e.1 ↔ _ ∨ Nominates x.first e.1
      rw [nominates_join]
      constructor
      · rintro (hhop | hfirst | hsecond)
        · exact Or.inl hhop
        · exact Or.inr hfirst
        · rcases (hharmless hleads).1 hname e.1 hsecond with hfirst | (hhop | h | h) | hnone
          · exact Or.inr hfirst
          · exact Or.inl hhop
          · exact absurd h hown
          · rw [h] at hfilled
            cases hfilled
          · exact absurd rfl (hnone e he)
      · rintro (hhop | hfirst)
        · exact Or.inl hhop
        · exact Or.inr (Or.inl hfirst)
  · refine ⟨fun _ h => absurd h hleads, fun _ => ⟨fun name hother => ?_, hcache⟩⟩
    refine forward_congr r hother fun _ _ _ => ?_
    rw [header_other r (Or.inr hleads)]

theorem control_unnoticed_iff (r : Request) (hname : x.name = "cache-control") :
    x.Unnoticed r ↔ x.CutHarmless := by
  have hforward : ∀ name, name ≠ x.name → (forwardHeaders { r with headers := x.joined }).get? name =
      (forwardHeaders { r with headers := x.split }).get? name := by
    intro name hother
    refine forward_congr r hother fun _ _ _ => ?_
    rw [header_other r (Or.inl (by rw [hname]; decide))]
  have hpersonal : Personal x.joined ↔ Personal x.split := names_split _
  by_cases hleads : x.Leads
  · have hjoined := header_joined hleads r
    have hsplit := header_split hleads r
    rw [hname] at hjoined hsplit
    have hfalse : cacheAllowed { r with headers := x.joined } = false ↔
        Personal x.joined ∨ bypasses x.first = true ∨ bypasses x.second = true := by
      rw [cacheAllowed_eq_false, hjoined, Option.getD_some, bypasses_join, Bool.or_eq_true]
    have hfalse' : cacheAllowed { r with headers := x.split } = false ↔
        Personal x.joined ∨ bypasses x.first = true := by
      rw [cacheAllowed_eq_false, hsplit, Option.getD_some, hpersonal]
    constructor
    · intro hsame _
      refine ⟨fun hconn => ?_, fun _ hsecond => ?_⟩
      · rw [hname] at hconn
        exact absurd hconn (by decide)
      · have hbypass := hfalse.mpr (Or.inr (Or.inr hsecond))
        rw [hsame.2, hfalse'] at hbypass
        exact hbypass.symm
    · intro hharmless
      refine ⟨hforward, ?_⟩
      have hiff : cacheAllowed { r with headers := x.joined } = false ↔
          cacheAllowed { r with headers := x.split } = false := by
        rw [hfalse, hfalse']
        constructor
        · rintro (hp | hfirst | hsecond)
          · exact Or.inl hp
          · exact Or.inr hfirst
          · exact ((hharmless hleads).2 hname hsecond).symm
        · rintro (hp | hfirst)
          · exact Or.inl hp
          · exact Or.inr (Or.inl hfirst)
      exact Bool.eq_iff_iff.mpr (by rw [← not_iff_not, Bool.not_eq_true, Bool.not_eq_true, hiff])
  · refine ⟨fun _ h => absurd h hleads, fun _ => ⟨hforward, cacheAllowed_congr hpersonal ?_⟩⟩
    rw [header_other r (Or.inr hleads)]

end ListLine

/-! ## Every line counts -/

/-- The values of the lines of a name, in order. -/
def Request.lines (r : Request) (name : Text) : List Text := Dict.values name r.headers

/-- No header that a `Connection` line nominates is forwarded for the client. -/
def NominatedHidden (r : Request) : Prop :=
  ∀ line ∈ r.lines "connection", ∀ name, Nominates line name → name ≠ "accept-encoding" →
    (forwardHeaders r).get? name = none

/-- A directive in any `Cache-Control` line bypasses the cache. -/
def DirectivesObeyed (r : Request) : Prop :=
  ∀ line ∈ r.lines "cache-control", bypasses line = true → cacheAllowed r = false

/-- What the later `Connection` lines add to the first is of no consequence. -/
def FirstNominatesAll (r : Request) : Prop :=
  ∀ line ∈ r.lines "connection", ∀ name, Nominates line name →
    Nominates ((r.header "connection").getD []) name ∨ Shielded name ∨ ∀ e ∈ r.headers, e.1 ≠ name

/-- What the later `Cache-Control` lines add to the first is of no consequence. -/
def FirstBypasses (r : Request) : Prop :=
  ∀ line ∈ r.lines "cache-control", bypasses line = true →
    bypasses ((r.header "cache-control").getD []) = true ∨ Personal r.headers

theorem nominatedHidden_iff {r : Request} (hr : ∀ e ∈ r.headers, LowerCase e.1) :
    NominatedHidden r ↔ FirstNominatesAll r := by
  constructor
  · intro h line hline name hnom
    by_contra hnot
    simp only [not_or, not_forall, not_not] at hnot
    obtain ⟨hfirst, hshielded, e, he, rfl⟩ := hnot
    have hgone := h line hline e.1 hnom fun heq => hshielded (Or.inr (Or.inr heq))
    exact hfirst ((forwarded_iff (hr e he) hshielded ⟨e, he, rfl⟩).mp hgone)
  · intro h line hline name hnom hencoding
    have hlower : LowerCase name := by
      obtain ⟨part, -, rfl⟩ := List.mem_map.mp hnom
      exact lower_lower _
    rw [forward_eq_none_iff hlower hencoding]
    rcases h line hline name hnom with hfirst | (hhop | hown | heq) | hnone
    · exact Or.inr (Or.inr (Or.inl hfirst))
    · exact Or.inr (Or.inl hhop)
    · exact Or.inl hown
    · exact absurd heq hencoding
    · exact Or.inr (Or.inr (Or.inr fun ⟨e, he, heq⟩ => hnone e he heq))

theorem directivesObeyed_iff {r : Request} : DirectivesObeyed r ↔ FirstBypasses r := by
  have hor : ∀ line, (bypasses line = true → cacheAllowed r = false) ↔ (bypasses line = true →
      bypasses ((r.header "cache-control").getD []) = true ∨ Personal r.headers) := by
    intro line
    rw [cacheAllowed_eq_false, or_comm]
  exact forall₂_congr fun line _ => hor line

/-- Splitting a `Connection` or `Cache-Control` line goes unnoticed if and only if the
part behind the cut is of no consequence.  In the same way all `Connection` lines are
heeded, and all `Cache-Control` lines, exactly if what the later ones add to the first
is of no consequence. -/
theorem split_line_unnoticed_iff {r : Request} (hr : ∀ e ∈ r.headers, LowerCase e.1) :
    (∀ x : ListLine, x.joined = r.headers → x.name = "connection" ∨ x.name = "cache-control" →
      (x.Unnoticed r ↔ x.CutHarmless)) ∧
    (NominatedHidden r ↔ FirstNominatesAll r) ∧ (DirectivesObeyed r ↔ FirstBypasses r) := by
  refine ⟨fun x hx hname => ?_, nominatedHidden_iff hr, directivesObeyed_iff⟩
  rcases hname with hname | hname
  · exact ListLine.connection_unnoticed_iff r (hx ▸ hr) hname
  · exact ListLine.control_unnoticed_iff r hname

/-! ## Requests of both kinds -/

/-- `Connection: close, x-internal`. -/
def mockHop : ListLine := ⟨[], "connection", "close", "x-internal", [("x-internal", "1")]⟩

/-- `Connection: close, keep-alive`. -/
def mockPlain : ListLine := ⟨[], "connection", "close", "keep-alive", [("x-internal", "1")]⟩

/-- `Cache-Control: max-stale, no-store`. -/
def mockControl : ListLine := ⟨[], "cache-control", "max-stale", "no-store", []⟩

def mockSender (headers : List (Text × Text)) : Request where
  method := "GET"
  headers := headers
  path := "/proxy/mock/items"
  userId := none
  clientIp := "127.0.0.1"

theorem split_line_unnoticed_mock : mockPlain.Unnoticed (mockSender mockPlain.joined) := by
  have hr : ∀ e ∈ (mockSender mockPlain.joined).headers, LowerCase e.1 := by decide
  refine ((split_line_unnoticed_iff hr).1 mockPlain rfl (Or.inl rfl)).mpr fun _ => ⟨?_, ?_⟩
  · intro _ name hnom
    have hname : name = "keep-alive" := by
      have hmem : name ∈ [("keep-alive" : Text)] := hnom
      exact List.mem_singleton.mp hmem
    exact Or.inr (Or.inl (Or.inl (by rw [hname]; decide)))
  · intro hname
    exact absurd hname (by decide)

/-- On two lines the same list lets a nominated header through, and a forbidden
response may come out of the cache. -/
theorem split_line_noticed :
    (∀ e ∈ mockHop.joined ++ mockControl.joined, LowerCase e.1) ∧
      ¬mockHop.Unnoticed (mockSender mockHop.joined) ∧
      ¬mockControl.Unnoticed (mockSender mockControl.joined) ∧
      ¬NominatedHidden (mockSender mockHop.split) ∧
      ¬DirectivesObeyed (mockSender mockControl.split) := by
  refine ⟨by decide, fun h => ?_, fun h => ?_, fun h => ?_, fun h => ?_⟩
  · exact absurd (h.1 "x-internal" (by decide)) (by decide +kernel)
  · exact absurd h.2 (by decide +kernel)
  · have hmem : "x-internal".toList ∈ (mockSender mockHop.split).lines "connection" := by decide
    have hnom : Nominates "x-internal" "x-internal" := by
      show "x-internal".toList ∈ _
      decide
    exact absurd (h _ hmem _ hnom (by decide)) (by decide +kernel)
  · have hmem : "no-store".toList ∈ (mockSender mockControl.split).lines "cache-control" := by decide
    exact absurd (h _ hmem (by decide)) (by decide +kernel)

end Proxy
end AdaptiveGateway
