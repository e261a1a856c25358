/-
The tier that a request declares about itself.

Three header fields are read, in this order: a round-trip time that the client has
measured, an effective connection type, and the wish to save data.  The first that can
be read decides, and where none can the tier is left to the passive estimate.
-/
import AdaptiveGateway.Detector.Stateless

namespace AdaptiveGateway

namespace Detector

open Codec Numeric Proxy
open Interpreter (parseFloat)
open Binary64 (zero)

/-- The three fields, as `request.headers.get` reports them. -/
structure Hints where
  clientRtt : Option Text := none
  ect : Option Text := none
  saveData : Option Text := none

def Hints.ofHeaders (headers : List (Text × Text)) : Hints where
  clientRtt := Dict.lookup ("x-client-rtt" : Text) headers
  ect := Dict.lookup ("ect" : Text) headers
  saveData := Dict.lookup ("save-data" : Text) headers

def ECT_MAP : List (Text × NetworkQuality) :=
  [("4g", .good), ("3g", .degraded), ("2g", .poor), ("slow-2g", .poor)]

/-- The tier of a connection type that is listed. -/
def ofEct (ect : Option Text) : Option NetworkQuality :=
  let ect := strip (ect.getD [])
  if ect.isEmpty then none else Dict.lookup (lower ect) ECT_MAP

def savesData (saveData : Option Text) : Bool := lower (strip (saveData.getD [])) == "on"

/-- `_explicit_signal`, with what `float` makes of a text. -/
def explicitSignal (float : Text → Option Binary64) (t : Thresholds) (h : Hints) :
    Except Exc (Option (NetworkQuality × Option Binary64)) :=
  match parseFloat (h.clientRtt.bind float) with
  | some clientRtt => (classifyRtt t clientRtt).map fun quality => some (quality, some clientRtt)
  | none =>
    match ofEct h.ect with
    | some quality => .ok (some (quality, none))
    | none => if savesData h.saveData then .ok (some (.degraded, none)) else .ok none

variable {float : Text → Option Binary64} {t : Thresholds} {h : Hints}

theorem parseFloat_usable {o : Option Binary64} {x : Binary64} (h : parseFloat o = some x) :
    Usable x := by
  obtain ⟨-, hx⟩ := Option.filter_eq_some_iff.mp h
  rw [Bool.and_eq_true] at hx
  exact ⟨hx.1, (Binary64.not_lt_zero hx.1).mpr hx.2⟩

/-- The tier of a round-trip time. -/
def tierOf (t : Thresholds) (rtt : Binary64) : NetworkQuality :=
  if rtt.lt t.goodMs then .good else if rtt.lt t.degradedMs then .degraded else .poor

theorem classifyRtt_usable {rtt : Binary64} (hrtt : Usable rtt) :
    classifyRtt t rtt = .ok (tierOf t rtt) := by
  obtain ⟨hfinite, hnonneg⟩ := hrtt
  simp only [classifyRtt, hfinite, hnonneg, Bool.not_true, Bool.or_self, Bool.false_eq_true,
    if_false, tierOf]
  split
  · rfl
  · split <;> rfl

/-- No declaration is refused: a number that cannot be classified is not read as one. -/
theorem explicitSignal_eq : explicitSignal float t h = .ok
    (match parseFloat (h.clientRtt.bind float) with
    | some rtt => some (tierOf t rtt, some rtt)
    | none => (ofEct h.ect).map (·, none) <|>
        if savesData h.saveData then some (.degraded, none) else none) := by
  unfold explicitSignal
  cases hrtt : parseFloat (h.clientRtt.bind float) with
  | some rtt =>
    simp only [classifyRtt_usable (parseFloat_usable hrtt)]
    rfl
  | none =>
    cases ofEct h.ect with
    | some quality => rfl
    | none => cases savesData h.saveData <;> rfl

end Detector

end AdaptiveGateway
