/-
The detection step of the Express middleware.

It reads the fields that the gateway reads, in the same order, but knows two tiers
only.  JavaScript and Python differ in what they take for blank and for a number, so
`Alike` says of a request that its fields look the same to both.
-/
import AdaptiveGateway.Detector.Signal

namespace AdaptiveGateway

namespace Sdk

open Codec Numeric Proxy Detector
open Interpreter (parseFloat)
open Binary64 (zero)

namespace Express

/-- The white space of `String.prototype.trim`, up to U+00FF. -/
def isWhiteSpace (c : Char) : Bool :=
  decide (9 ≤ c.toNat ∧ c.toNat ≤ 13 ∨ c.toNat = 32 ∨ c.toNat = 160)

def trim (t : Text) : Text :=
  ((t.dropWhile isWhiteSpace).reverse.dropWhile isWhiteSpace).reverse

structure Detection where
  rttDegradedThresholdMs : Binary64 := ms 150
  simulateDegraded : Bool := false

/-- `rttRaw && rttRaw.trim() ? Number(rttRaw) : NaN`. -/
def readRtt (number : Text → Binary64) : Option Text → Binary64
  | some rttRaw => if trim rttRaw = [] then .nan else number rttRaw
  | none => .nan

def listedTypes : List Text := ["4g", "3g", "2g", "slow-2g"]

/-- The detection of `adaptiveGateway`. -/
def isDegraded (number : Text → Binary64) (config : Detection) (h : Hints) : Bool :=
  if config.simulateDegraded then true
  else
    let ect := lower (trim (h.ect.getD []))
    let saveData := lower (trim (h.saveData.getD []))
    let rtt := readRtt number h.clientRtt
    if rtt.isFinite && zero.le rtt then config.rttDegradedThresholdMs.le rtt
    else if listedTypes.contains ect then ect != "4g"
    else saveData == "on"

/-! ## The same request on both sides -/

/-- The field has no white space that only one of the languages knows. -/
def PlainSpaces (field : Option Text) : Prop := ∀ c ∈ field.getD [], isWhiteSpace c = isSpace c

/-- Both languages read the fields of a request alike: they strip the same characters, and
a round-trip time is the same number to them or none. -/
structure Alike (number : Text → Binary64) (float : Text → Option Binary64) (h : Hints) : Prop where
  ect : PlainSpaces h.ect
  saveData : PlainSpaces h.saveData
  clientRtt : parseFloat (some (readRtt number h.clientRtt)) = parseFloat (h.clientRtt.bind float)

theorem dropWhile_congr {p q : Char → Bool} {t : Text} (h : ∀ c ∈ t, p c = q c) :
    t.dropWhile p = t.dropWhile q := by
  induction t with
  | nil => rfl
  | cons c t ih =>
    rw [List.dropWhile_cons, List.dropWhile_cons, h c List.mem_cons_self,
      ih fun d hd => h d (List.mem_cons_of_mem c hd)]

theorem trim_eq_strip {t : Text} (h : ∀ c ∈ t, isWhiteSpace c = isSpace c) : trim t = strip t := by
  rw [trim, strip, dropWhile_congr h]
  refine congrArg List.reverse (dropWhile_congr fun c hc => h c ?_)
  exact (List.dropWhile_suffix isSpace).subset (List.mem_reverse.mp hc)

variable {number : Text → Binary64} {float : Text → Option Binary64} {h : Hints}

theorem listedTypes_eq : listedTypes = ECT_MAP.map Prod.fst := rfl

/-- Of the listed types only the fastest is good. -/
theorem ect_ne_good_iff : ∀ e ∈ ECT_MAP, e.2 ≠ .good ↔ e.1 ≠ ("4g" : Text) := by
  decide

/-- A listed type is degraded unless it is the fastest, and another one says nothing. -/
theorem ofEct_cases (field : Option Text) :
    (listedTypes.contains (lower (strip (field.getD []))) = true ∧ ∃ quality,
        ofEct field = some quality ∧
          (quality ≠ .good ↔ lower (strip (field.getD [])) ≠ ("4g" : Text))) ∨
      listedTypes.contains (lower (strip (field.getD []))) = false ∧ ofEct field = none := by
  rw [ofEct]
  generalize strip (field.getD []) = ect
  by_cases hempty : ect = []
  · subst hempty
    exact Or.inr ⟨by decide, rfl⟩
  · rw [if_neg (by simpa using hempty)]
    cases hlookup : Dict.lookup (lower ect) ECT_MAP with
    | some quality =>
      have hmem := Dict.mem_of_lookup hlookup
      refine Or.inl ⟨?_, quality, rfl, ect_ne_good_iff _ hmem⟩
      rw [listedTypes_eq, List.contains_iff_mem]
      exact List.mem_map_of_mem hmem
    | none =>
      refine Or.inr ⟨?_, rfl⟩
      rw [listedTypes_eq, Bool.eq_false_iff]
      intro hcontains
      obtain ⟨⟨name, quality⟩, hmem, hname⟩ := List.mem_map.mp (List.contains_iff_mem.mp hcontains)
      subst hname
      obtain ⟨quality', hsome⟩ := Dict.exists_lookup_of_mem hmem
      rw [hsome] at hlookup
      cases hlookup

theorem tierOf_ne_good_iff {t : Thresholds} {rtt : Binary64} (hrtt : Usable rtt)
    (hgood : t.goodMs.isFinite = true) : tierOf t rtt ≠ .good ↔ t.goodMs.le rtt = true := by
  rw [tierOf]
  cases hlt : rtt.lt t.goodMs with
  | true =>
    rw [(Binary64.lt_iff hrtt.1 hgood).mp hlt]
    simp
  | false =>
    have hle : t.goodMs.le rtt = true := by
      by_contra hnot
      rw [(Binary64.lt_iff hrtt.1 hgood).mpr (Bool.eq_false_iff.mpr hnot)] at hlt
      cases hlt
    refine iff_of_true ?_ hle
    cases rtt.lt t.degradedMs <;> decide

/-- The middleware calls a client degraded exactly if the gateway, with the same first
threshold, reads a tier other than GOOD off the request. -/
theorem isDegraded_iff (config : Detection) (t : Thresholds)
    (hreal : config.simulateDegraded = false)
    (hthreshold : config.rttDegradedThresholdMs = t.goodMs) (hgood : t.goodMs.isFinite = true)
    (halike : Alike number float h) :
    isDegraded number config h = true ↔ ∃ quality rtt,
      explicitSignal float t h = .ok (some (quality, rtt)) ∧ quality ≠ .good := by
  have hect : lower (trim (h.ect.getD [])) = lower (strip (h.ect.getD [])) :=
    congrArg lower (trim_eq_strip halike.ect)
  have hsave : (lower (trim (h.saveData.getD [])) == "on") = savesData h.saveData :=
    congrArg (fun t => lower t == ("on" : Text)) (trim_eq_strip halike.saveData)
  have hsignal : ∀ o : Option (NetworkQuality × Option Binary64),
      (∃ quality rtt, (.ok o : Except Exc _) = .ok (some (quality, rtt)) ∧ quality ≠ .good) ↔
        ∃ x, o = some x ∧ x.1 ≠ .good := by
    intro o
    simp
  rw [explicitSignal_eq, hsignal, isDegraded, hreal]
  simp only [Bool.false_eq_true, if_false]
  rw [hect, hsave, ← halike.clientRtt]
  generalize readRtt number h.clientRtt = rtt
  cases hrtt : rtt.isFinite && zero.le rtt with
  | true =>
    -- A time that can be read decides alone.
    have hparse : parseFloat (some rtt) = some rtt := Option.filter_eq_some_iff.mpr ⟨rfl, hrtt⟩
    rw [hparse, if_pos rfl, hthreshold, ← tierOf_ne_good_iff (parseFloat_usable hparse) hgood]
    simp
  | false =>
    have hparse : parseFloat (some rtt) = none := by
      rw [parseFloat, Option.filter_some, hrtt]
      rfl
    rw [hparse, if_neg Bool.false_ne_true]
    obtain ⟨hlisted, quality, hquality, hgoodIff⟩ | ⟨hlisted, hnone⟩ := ofEct_cases h.ect
    · rw [hlisted, hquality, if_pos rfl, bne_iff_ne, ← hgoodIff]
      simp
    · rw [hlisted, hnone, if_neg Bool.false_ne_true]
      cases savesData h.saveData <;> simp

/-- A client that has measured the threshold itself. -/
def mockHints : Hints := { clientRtt := some "150", ect := some " 4G " }

def mockNumber (t : Text) : Binary64 := if t = "150" then ms 150 else .nan

def mockFloat (t : Text) : Option Binary64 := if t = "150" then some (ms 150) else none

theorem isDegraded_mock : isDegraded mockNumber {} mockHints = true ↔ ∃ quality rtt,
    explicitSignal mockFloat crisp mockHints = .ok (some (quality, rtt)) ∧ quality ≠ .good := by
  refine isDegraded_iff {} crisp rfl rfl (by decide +kernel) ⟨?_, ?_, ?_⟩
  · intro c hc
    have hall : (" 4G " : Text).all fun c => isWhiteSpace c == isSpace c := by decide
    exact beq_iff_eq.mp (List.all_eq_true.mp hall c hc)
  · intro c hc
    cases hc
  · rfl

end Express

end Sdk

end AdaptiveGateway
