/-
Whether a reduced body is still JSON.

`json.loads` makes an infinite float of a literal beyond the range of doubles, and
`json.dumps` writes it as a word that no JSON text has.  So a body that is rewritten
stays valid exactly if none of the locations that are kept holds such a literal.
-/
import AdaptiveGateway.Optimizer.Stripping

namespace AdaptiveGateway

namespace Optimizer

open Codec Numeric Python
open Python.Value

/-- A JSON text in UTF-8. -/
def Valid (body : Bytes) : Prop := ∃ t, utf8Decode body = some t ∧ Rfc8259.JsonText t

/-- The transformation does not keep this location. -/
def Removed (fields : List Text) (skeleton : Bool) (path : List Step) : Prop :=
  Configured fields path ∨ skeleton = true ∧ within SKELETON_MAX_ARRAY_ITEMS path = false

/-- The transformation finds something to remove.  (A body that is nothing but a NaN
counts as changed, since it differs from itself.) -/
def Changes (data : Value) (fields : List Text) (skeleton : Bool) : Prop :=
  data = .float .nan ∨ ∃ path, (get path data).isSome ∧ Removed fields skeleton path

/-- If the body is rewritten, no number beyond the range of doubles is kept. -/
def Representable (it : Interpreter) (body : Bytes) (fields : List Text) (skeleton : Bool) : Prop :=
  ∀ data, it.loads body = some data → it.walkTooDeep data fields skeleton = false →
    Changes data fields skeleton → ∀ path x, get path data = some (.float x) →
      x.isFinite = true ∨ Removed fields skeleton path

/-! ## What is kept -/

theorem loads_utf8 {it : Interpreter} {t : Text}
    (hdetect : detectEncoding (utf8 t) = (.utf8, utf8 t))
    (hdeep : it.scanTooDeep (Str.ofText t) = false) :
    it.loads (utf8 t) = Value.loads it.py.int it.py.float (Str.ofText t) := by
  rw [Interpreter.loads, decodeBytes_utf8 hdetect]
  simp only [Option.bind_some, hdeep, Bool.false_eq_true, if_false]

theorem truncate_eq_float {v : Value} {x : Binary64} : truncate v = .float x ↔ v = .float x := by
  cases v <;> simp [truncate, cut]

theorem without_eq_float {P : List Str → Bool} {v : Value} {x : Binary64} :
    without P v = .float x ↔ v = .float x := by
  cases v <;> simp [without]

theorem get_makeSkeleton (data : Value) (fields : List Text) (path : List Step) :
    get path (makeSkeleton data fields) = if within SKELETON_MAX_ARRAY_ITEMS path then
      (get path (stripFields data fields)).map truncate else none := by
  rw [makeSkeleton, truncate, get_cut]
  rfl

section

variable {data : Value} (hkeyed : Keyed data) (fields : List Text) (skeleton : Bool)
include hkeyed

theorem keyed_stripFields : Keyed (stripFields data fields) := by
  rw [stripFields_without fields hkeyed]
  exact keyed_without _ data hkeyed

theorem keyed_transformed : Keyed (transformed data fields skeleton) := by
  have hstrip := keyed_stripFields hkeyed fields
  cases skeleton with
  | false => exact hstrip
  | true => exact keyed_cut _ _ hstrip

theorem isSome_get_stripFields (path : List Step) :
    (get path (stripFields data fields)).isSome ↔ (get path data).isSome ∧ ¬Configured fields path :=
  (stripFields_locations fields hkeyed).1 path

/-- A location is kept unless it is one that is removed. -/
theorem isSome_get_transformed (path : List Step) :
    (get path (transformed data fields skeleton)).isSome ↔
      (get path data).isSome ∧ ¬Removed fields skeleton path := by
  have hstrip := isSome_get_stripFields hkeyed fields path
  cases skeleton with
  | false => simpa [transformed, Removed] using hstrip
  | true =>
    rw [transformed, if_pos rfl, get_makeSkeleton]
    cases hwithin : within SKELETON_MAX_ARRAY_ITEMS path with
    | true => simpa [Removed, hwithin] using hstrip
    | false => simp [Removed, hwithin]

theorem get_float_stripFields {path : List Step} {x : Binary64} :
    get path (stripFields data fields) = some (.float x) ↔
      get path data = some (.float x) ∧ ¬Configured fields path := by
  rw [stripFields_without fields hkeyed, get_without, ← passes_listed]
  cases hpasses : passes (listed fields) path with
  | true => simp
  | false => simp [Option.map_eq_some_iff, without_eq_float]

theorem get_float_transformed {path : List Step} {x : Binary64} :
    get path (transformed data fields skeleton) = some (.float x) ↔
      get path data = some (.float x) ∧ ¬Removed fields skeleton path := by
  have hstrip : get path (stripFields data fields) = some (.float x) ↔
      get path data = some (.float x) ∧ ¬Configured fields path :=
    get_float_stripFields hkeyed fields
  cases skeleton with
  | false => simpa [transformed, Removed] using hstrip
  | true =>
    rw [transformed, if_pos rfl, get_makeSkeleton]
    cases hwithin : within SKELETON_MAX_ARRAY_ITEMS path with
    | true => simpa [Removed, hwithin, Option.map_eq_some_iff, truncate_eq_float] using hstrip
    | false => simp [Removed, hwithin]

theorem transformed_of_kept
    (h : ∀ path, (get path data).isSome → ¬Removed fields skeleton path) :
    transformed data fields skeleton = data := by
  have hstrip : stripFields data fields = data := by
    rw [stripFields_without fields hkeyed]
    refine without_of_kept data hkeyed fun path hpath => ?_
    have hkept := h path hpath
    rw [Removed, not_or, ← passes_listed, Bool.not_eq_true] at hkept
    exact hkept.1
  cases skeleton with
  | false => exact hstrip
  | true =>
    rw [transformed, if_pos rfl, makeSkeleton, hstrip]
    refine cut_of_within _ data hkeyed fun path hpath => ?_
    have hkept := h path hpath
    rw [Removed, not_or, not_and, Bool.not_eq_false] at hkept
    exact hkept.2 rfl

theorem unchanged_iff :
    unchanged (transformed data fields skeleton) data = true ↔ ¬Changes data fields skeleton := by
  rw [unchanged, Bool.and_eq_true, decide_eq_true_eq, decide_eq_true_eq, Changes, not_or,
    and_comm, not_exists]
  refine and_congr_right fun _ => ⟨fun h path hpath => ?_, fun h => ?_⟩
  · have hkept := isSome_get_transformed hkeyed fields skeleton path
    rw [h] at hkept
    exact (hkept.mp hpath.1).2 hpath.2
  · exact transformed_of_kept hkeyed fields skeleton fun path hsome hremoved =>
      h path ⟨hsome, hremoved⟩

theorem finite_transformed : finite (transformed data fields skeleton) = true ↔
    ∀ path x, get path data = some (.float x) →
      x.isFinite = true ∨ Removed fields skeleton path := by
  rw [finite_iff (keyed_transformed hkeyed fields skeleton)]
  refine forall_congr' fun path => forall_congr' fun x => ?_
  rw [get_float_transformed hkeyed fields skeleton, and_imp]
  refine imp_congr_right fun _ => ?_
  rw [or_comm, or_iff_not_imp_left]

end

/-! ## Validity -/

theorem transformJson_changed {it : Interpreter} {body : Bytes} {data : Value} {fields : List Text}
    {skeleton : Bool} (hloads : it.loads body = some data)
    (hdeep : it.walkTooDeep data fields skeleton = false)
    (hchanged : unchanged (transformed data fields skeleton) data = false) :
    transformJson it body fields skeleton = it.dumps (transformed data fields skeleton) := by
  rw [transformJson, hloads]
  simp [hdeep, hchanged]

theorem valid_utf8 (t : Text) : Valid (utf8 t) ↔ Rfc8259.JsonText t := by
  constructor
  · rintro ⟨u, hu, hjson⟩
    rw [utf8Decode_utf8] at hu
    exact Option.some.inj hu ▸ hjson
  · exact fun h => ⟨t, utf8Decode_utf8 t, h⟩

/-- A valid body stays valid exactly if it keeps no number beyond the range of doubles
when it is rewritten. -/
theorem transformJson_valid_iff {it : Interpreter}
    (hrepr : ∀ x : Binary64, x.isFinite = true → Json.IsNumber (it.py.repr x)) {body : Bytes}
    (hbody : Valid body) (fields : List Text) (skeleton : Bool) :
    Valid (transformJson it body fields skeleton) ↔ Representable it body fields skeleton := by
  rw [transformJson, Representable]
  cases hloads : it.loads body with
  | none => simp [hbody]
  | some data =>
    have hkeyed := keyed_loaded hloads
    have hunchanged := unchanged_iff hkeyed fields skeleton
    have hfinite := finite_transformed hkeyed fields skeleton
    simp only [Option.some.injEq, forall_eq']
    cases hdeep : it.walkTooDeep data fields skeleton with
    | true => simp [hbody]
    | false =>
      simp only [Bool.false_eq_true, if_false, forall_const]
      split
      next h =>
        have hchanges := hunchanged.mp h
        exact iff_of_true hbody fun h => absurd h hchanges
      next h =>
        have hchanges : Changes data fields skeleton := by
          rw [hunchanged, not_not] at h
          exact h
        rw [Interpreter.dumps, valid_utf8, dumps_jsonText hrepr Rfc8259.ws_nil, hfinite]
        exact ⟨fun hkept _ => hkept, fun hkept => hkept hchanges⟩

/-! ## The setting of the tests -/

/-- `float` and `int` of the literals below. -/
noncomputable def mockInterpreter : Interpreter where
  py := { mockNumbers with
    float := fun lit => if lit = "1e400".toList then some (.inf false) else mockNumbers.float lit
    int := fun lit => if lit = ['0'] then some 0 else mockNumbers.int lit }
  scanTooDeep _ := false
  walkTooDeep _ _ _ := false

theorem mockInterpreter_repr (x : Binary64) (hx : x.isFinite = true) :
    Json.IsNumber (mockInterpreter.py.repr x) := mockNumbers_faithful.repr_number x hx

def mockLargeText : Text := "\x7b\"a\":1e400,\"b\":0\x7d".toList

def mockLarge : Value := .dict [("a", .float (.inf false)), ("b", .int 0)]

theorem jsonText_mockLargeText : Rfc8259.JsonText mockLargeText := by
  have hnumber : Json.IsNumber "1e400".toList := by rw [Json.IsNumber]; decide +kernel
  have hvalue : Value.dumps (fun _ => "1e400".toList) []
      (.dict [("a", .float .zero), ("b", .int 0)]) =
      mockLargeText := by decide +kernel
  rw [← hvalue]
  exact (dumps_jsonText (fun _ _ => hnumber) Rfc8259.ws_nil _).mpr rfl

theorem loads_mockLarge : mockInterpreter.loads (utf8 mockLargeText) = some mockLarge := by
  have hdetect : detectEncoding (utf8 mockLargeText) = (.utf8, utf8 mockLargeText) := by
    decide +kernel
  have hscan : Value.loads mockInterpreter.py.int mockInterpreter.py.float
      (Str.ofText mockLargeText) = some mockLarge := by decide +kernel
  rw [loads_utf8 hdetect rfl, hscan]

theorem transformJson_valid_iff_removed :
    Valid (transformJson mockInterpreter (utf8 mockLargeText) ["a"] false) := by
  have hfinite : finite (transformed mockLarge ["a"] false) = true := by decide +kernel
  have hbody : Valid (utf8 mockLargeText) := ⟨_, utf8Decode_utf8 _, jsonText_mockLargeText⟩
  refine (transformJson_valid_iff mockInterpreter_repr hbody ["a"] false).mpr ?_
  intro data hdata _ _
  have hkeyed := keyed_loaded hdata
  rw [loads_mockLarge, Option.some.injEq] at hdata
  subst hdata
  exact (finite_transformed hkeyed ["a"] false).mp hfinite

/-- What is left of the body is written with a word that is no JSON text. -/
theorem transformJson_infinite :
    Valid (utf8 mockLargeText) ∧
      transformJson mockInterpreter (utf8 mockLargeText) ["b"] false =
        utf8 "\x7b\"a\":Infinity\x7d".toList ∧
      ¬Valid (transformJson mockInterpreter (utf8 mockLargeText) ["b"] false) := by
  have hstrip : transformed mockLarge ["b"] false = .dict [("a", .float (.inf false))] := by
    decide +kernel
  have hchanged : unchanged (transformed mockLarge ["b"] false) mockLarge = false := by
    decide +kernel
  have htext : Value.dumps mockInterpreter.py.repr [] (.dict [("a", .float (.inf false))]) =
      "\x7b\"a\":Infinity\x7d".toList := by decide +kernel
  have hout := transformJson_changed loads_mockLarge rfl hchanged
  rw [hstrip] at hout
  refine ⟨⟨_, utf8Decode_utf8 _, jsonText_mockLargeText⟩, by rw [hout, Interpreter.dumps, htext], ?_⟩
  rw [hout, Interpreter.dumps, valid_utf8, dumps_jsonText mockInterpreter_repr Rfc8259.ws_nil]
  exact Bool.false_ne_true

end Optimizer

end AdaptiveGateway
