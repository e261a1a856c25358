/-
Reading a finished study.

The identities that the schedule plans are put in a set, and each line of the raw file
takes its own out again.  What is left in the end is missing, and a row whose identity is
not in the set is too many.  The set compares as Python does, so a row numbered `1.0` or
`True` takes out the identity of the first request; the checks of the rows refuse it
afterwards.

The raw file is read twice, and does not change in between.
-/
import AdaptiveGateway.Numbers
import AdaptiveGateway.Study.Rows

namespace AdaptiveGateway
namespace Study

open Codec Python

/-- One entry of `manifest["schedule"]`. -/
structure Block where
  trialId : Str
  position : Nat
  mode : Str

/-- The fields of the manifest that are read. -/
structure Manifest where
  status : Text
  rawSha256 : Option Text
  condition : Str
  schedule : List Block
  warmupRequests : Nat
  requestsPerBlock : Nat

/-- `json.loads` and `hashlib.sha256(_).hexdigest()` of bytes. -/
structure Libraries where
  loads : Bytes → Except Exc Value
  sha256 : Bytes → Text

/-- The lines of a binary file, with their ends. -/
def lines : Bytes → List Bytes
  | [] => []
  | c :: b =>
    if c = 10 then [c] :: lines b
    else match lines b with
      | [] => [[c]]
      | l :: ls => (c :: l) :: ls

/-! ## The plan -/

/-- The requests of one phase of a block. -/
def phaseIdentities (condition : Str) (block : Block) (phase : Str) (count : Nat) :
    List Identity :=
  (List.range count).map fun i : Nat => ⟨block.trialId, condition, block.mode, phase, (i : ℤ) + 1⟩

def blockIdentities (m : Manifest) (block : Block) : List Identity :=
  phaseIdentities m.condition block "warmup" m.warmupRequests ++
    phaseIdentities m.condition block "measured" m.requestsPerBlock

/-- The identities in the order in which they are put in the set. -/
def planned (m : Manifest) : List Identity := m.schedule.flatMap (blockIdentities m)

def expect (expected : List Identity) : List Identity → Except Exc (List Identity)
  | [] => .ok expected
  | p :: ps => do
    refuse (decide (p ∈ expected)) "Duplicate block in planned schedule"
    expect (expected ++ [p]) ps

/-! ## The rows -/

section

variable (lib : Libraries)

/-- The lines, when these identities are still expected. -/
def observe (raw : Bytes) (digest : Text) (expected : List Identity) :
    List Bytes → Except Exc (List Row)
  | [] => do
    refuse (!expected.isEmpty) "Raw observations do not match the planned schedule"
    refuse (decide (lib.sha256 (lines raw).flatten ≠ digest)) "Raw artifact changed during analysis"
    return []
  | line :: rest =>
    match lib.loads line with
    | .error e => .error e
    | .ok (.dict row) =>
      if (identity row).all Value.hashable then do
        refuse (!expected.any fun p => Value.eqElems (identity row) p.values)
          "Raw observations do not match the planned schedule"
        let rows ← observe raw digest
          (expected.eraseP fun p => Value.eqElems (identity row) p.values) rest
        return row :: rows
      else .error .typeError
    | .ok _ => .error (.valueError "Observation must be an object")

/-- `observations()` -/
def observations (m : Manifest) (digest : Text) (raw : Bytes) : Except Exc (List Row) := do
  let expected ← expect [] (planned m)
  observe lib raw digest expected (lines raw)

def accepted (allowCollected : Bool) : List Text :=
  ["complete", "invalid_responses"] ++ if allowCollected then ["collected"] else []

/-- `load_study(directory, allow_collected=...)`, with its rows in a list. -/
def loadStudy (allowCollected : Bool) (m : Manifest) (raw : Bytes) : Except Exc (List Row) := do
  refuse (decide (m.status ∉ accepted allowCollected)) "Study is not finished"
  match m.rawSha256 with
  | none => .error .keyError
  | some digest => do
    refuse (decide (lib.sha256 raw ≠ digest)) "Raw artifact hash mismatch"
    let rows ← observations lib m digest raw
    let _ ← validatedRows (rows.map .dict)
    return rows

end

/-! ## The set of the plan -/

theorem flatten_lines (b : Bytes) : (lines b).flatten = b := by
  induction b with
  | nil => rfl
  | cons c b ih =>
    rw [lines]
    split
    next => rw [List.flatten_cons, ih, List.singleton_append]
    next =>
      split
      next h =>
        rw [h] at ih
        rw [← ih]
        rfl
      next h =>
        rw [h] at ih
        rw [← ih]
        rfl

/-- A line ends with the first newline. -/
theorem lines_line {b : Bytes} (h : (10 : UInt8) ∉ b) (rest : Bytes) :
    lines (b ++ 10 :: rest) = (b ++ [10]) :: lines rest := by
  induction b with
  | nil =>
    rw [List.nil_append, lines, if_pos rfl]
    rfl
  | cons c b ih =>
    have hc : c ≠ 10 := fun hc => h (hc ▸ List.mem_cons_self)
    rw [List.cons_append, lines, if_neg hc, ih fun hb => h (List.mem_cons_of_mem c hb)]
    rfl

theorem expect_ok {expected ps out : List Identity} :
    expect expected ps = .ok out ↔
      out = expected ++ ps ∧ ps.Nodup ∧ ∀ p ∈ ps, p ∉ expected := by
  induction ps generalizing expected with
  | nil =>
    rw [expect]
    constructor
    · intro h
      cases h
      simp
    · rintro ⟨rfl, -⟩
      rw [List.append_nil]
  | cons p ps ih =>
    rw [expect, seq_ok, refuse_ok, decide_eq_false_iff_not, ih, List.append_assoc,
      List.singleton_append, List.nodup_cons, List.forall_mem_cons]
    constructor
    · rintro ⟨hp, hout, hnodup, hnew⟩
      refine ⟨hout, ⟨fun hmem => ?_, hnodup⟩, hp, fun q hq hmem => ?_⟩
      · exact hnew p hmem (List.mem_append_right _ List.mem_cons_self)
      · exact hnew q hq (List.mem_append_left _ hmem)
    · rintro ⟨hout, ⟨hp, hnodup⟩, hnew, hrest⟩
      refine ⟨hnew, hout, hnodup, fun q hq hmem => ?_⟩
      rcases List.mem_append.mp hmem with hmem | hmem
      · exact hrest q hq hmem
      · exact hp (List.mem_singleton.mp hmem ▸ hq)

/-- What two blocks must not have in common. -/
def Block.key (b : Block) : Str × Str := (b.trialId, b.mode)

theorem mem_blockIdentities {m : Manifest} {b : Block} {p : Identity}
    (h : p ∈ blockIdentities m b) : (p.trialId, p.mode) = b.key := by
  rcases List.mem_append.mp h with h | h
  · obtain ⟨i, -, rfl⟩ := List.mem_map.mp h
    rfl
  · obtain ⟨i, -, rfl⟩ := List.mem_map.mp h
    rfl

theorem nodup_phaseIdentities (condition : Str) (b : Block) (phase : Str) (count : Nat) :
    (phaseIdentities condition b phase count).Nodup := by
  refine List.nodup_range.map fun i j h => ?_
  have hid : (i : ℤ) + 1 = j + 1 := (Identity.mk.inj h).2.2.2.2
  omega

theorem nodup_blockIdentities (m : Manifest) (b : Block) : (blockIdentities m b).Nodup := by
  refine List.nodup_append.mpr ⟨nodup_phaseIdentities _ _ _ _, nodup_phaseIdentities _ _ _ _, ?_⟩
  intro p hp q hq heq
  obtain ⟨i, -, rfl⟩ := List.mem_map.mp hp
  obtain ⟨j, -, rfl⟩ := List.mem_map.mp hq
  have hphase : ("warmup" : Str) = "measured" := (Identity.mk.inj heq).2.2.2.1
  revert hphase
  decide

/-- The measured phase has a first request. -/
theorem first_mem {m : Manifest} (hpos : 0 < m.requestsPerBlock) (b : Block) :
    ⟨b.trialId, m.condition, b.mode, "measured", 1⟩ ∈ blockIdentities m b :=
  List.mem_append_right _ (List.mem_map.mpr ⟨0, List.mem_range.mpr hpos, rfl⟩)

/-- The set has every identity of the plan unless a block is planned twice. -/
theorem nodup_planned {m : Manifest} (hpos : 0 < m.requestsPerBlock) :
    (planned m).Nodup ↔ (m.schedule.map Block.key).Nodup := by
  rw [planned, List.nodup_flatMap]
  constructor
  · rintro ⟨-, h⟩
    refine List.pairwise_map.mpr (h.imp fun {b c} hdisjoint hkey => ?_)
    obtain ⟨htrial, hmode⟩ := Prod.mk.inj hkey
    have hb := first_mem hpos b
    rw [htrial, hmode] at hb
    exact hdisjoint hb (first_mem hpos c)
  · intro h
    refine ⟨fun b _ => nodup_blockIdentities m b,
      (List.pairwise_map.mp h).imp fun {b c} hne p hb hc => ?_⟩
    exact hne ((mem_blockIdentities hb).symm.trans (mem_blockIdentities hc))

/-! ## What the rows take out -/

/-- Taking out what Python finds equal is taking out the identity itself. -/
theorem eraseP_values (p : Identity) (expected : List Identity) :
    (expected.eraseP fun q => Value.eqElems p.values q.values) = expected.erase p := by
  rw [List.erase_eq_eraseP']
  congr 1
  funext q
  rw [Bool.eq_iff_iff, Identity.eqElems_values, beq_iff_eq]
  exact eq_comm

theorem any_values (p : Identity) (expected : List Identity) :
    (!expected.any fun q => Value.eqElems p.values q.values) = false ↔ p ∈ expected := by
  rw [Bool.not_eq_false', List.any_eq_true]
  constructor
  · rintro ⟨q, hq, heq⟩
    exact Identity.eqElems_values.mp heq ▸ hq
  · exact fun h => ⟨p, h, Identity.eqElems_values.mpr rfl⟩

theorem hashable_values (p : Identity) : p.values.all Value.hashable = true := rfl

section

variable {lib : Libraries} {raw : Bytes} {digest : Text}

/-- The lines pass if they hold one row for each expected identity. -/
theorem observe_ok {expected : List Identity} {ls : List Bytes} {rows : List Row}
    (hrows : ∀ row ∈ rows, checkIdentity row = .ok ()) :
    observe lib raw digest expected ls = .ok rows ↔
      ls.map lib.loads = rows.map (fun row => .ok (.dict row)) ∧
      (rows.map identity).Perm (expected.map Identity.values) ∧
      lib.sha256 raw = digest := by
  induction ls generalizing expected rows with
  | nil =>
    rw [observe, seq_ok, seq_ok, refuse_ok, refuse_ok, flatten_lines, Bool.not_eq_false',
      List.isEmpty_iff, decide_eq_false_iff_not, not_not]
    constructor
    · rintro ⟨rfl, hdigest, h⟩
      cases h
      exact ⟨rfl, List.Perm.refl _, hdigest⟩
    · rintro ⟨hlines, hperm, hdigest⟩
      have hnil : rows = [] := List.map_eq_nil_iff.mp hlines.symm
      subst hnil
      refine ⟨List.map_eq_nil_iff.mp (List.nil_perm.mp hperm), hdigest, rfl⟩
  | cons line ls ih =>
    cases rows with
    | nil =>
      constructor
      · intro h
        rw [observe] at h
        split at h
        next => cases h
        next =>
          split at h
          next =>
            obtain ⟨-, h⟩ := seq_ok.mp h
            obtain ⟨rest, -, h⟩ := bind_ok.mp h
            cases h
          next => cases h
        next => cases h
      · rintro ⟨hlines, -⟩
        cases hlines
    | cons row rows =>
      obtain ⟨p, hp⟩ := identity_of_checked (hrows row List.mem_cons_self)
      have hrest : ∀ row ∈ rows, checkIdentity row = .ok () := fun r hr =>
        hrows r (List.mem_cons_of_mem _ hr)
      have hperm : ((row :: rows).map identity).Perm (expected.map Identity.values) ↔
          p ∈ expected ∧ (rows.map identity).Perm ((expected.erase p).map Identity.values) := by
        rw [List.map_cons, hp, List.cons_perm_iff_perm_erase,
          List.map_erase fun _ _ => Identity.values_injective,
          List.mem_map_of_injective fun _ _ => Identity.values_injective]
      have hstep : lib.loads line = .ok (.dict row) →
          (observe lib raw digest expected (line :: ls) = .ok (row :: rows) ↔ p ∈ expected ∧
            observe lib raw digest (expected.erase p) ls = .ok rows) := by
        intro hline
        rw [observe, hline]
        simp only [hp, hashable_values, if_true, eraseP_values]
        rw [seq_ok, bind_ok, refuse_ok, any_values]
        refine and_congr_right fun _ => ⟨?_, fun h => ⟨rows, h, rfl⟩⟩
        rintro ⟨rest, hrest, h⟩
        cases h
        exact hrest
      constructor
      · intro h
        have hline : lib.loads line = .ok (.dict row) := by
          rw [observe] at h
          split at h
          next => cases h
          next row' hline =>
            split at h
            next =>
              obtain ⟨-, h⟩ := seq_ok.mp h
              obtain ⟨rest, -, h⟩ := bind_ok.mp h
              cases h
              exact hline
            next => cases h
          next => cases h
        obtain ⟨hmem, h⟩ := (hstep hline).mp h
        obtain ⟨hlines, hperm', hdigest⟩ := (ih hrest).mp h
        exact ⟨by rw [List.map_cons, List.map_cons, hline, hlines], hperm.mpr ⟨hmem, hperm'⟩,
          hdigest⟩
      · rintro ⟨hlines, hperm', hdigest⟩
        obtain ⟨hline, hlines⟩ := List.cons.inj hlines
        obtain ⟨hmem, hperm'⟩ := hperm.mp hperm'
        exact (hstep hline).mpr ⟨hmem, (ih hrest).mpr ⟨hlines, hperm', hdigest⟩⟩

/-- The steps of a load that succeeds. -/
theorem loadStudy_ok {allowCollected : Bool} {m : Manifest} {rows : List Row} :
    loadStudy lib allowCollected m raw = .ok rows ↔
      m.status ∈ accepted allowCollected ∧ m.rawSha256 = some (lib.sha256 raw) ∧
      observations lib m (lib.sha256 raw) raw = .ok rows ∧
      validatedRows (rows.map .dict) = .ok rows := by
  rw [loadStudy, seq_ok, refuse_ok, decide_eq_false_iff_not, not_not]
  refine and_congr_right fun _ => ?_
  constructor
  · intro h
    cases hdigest : m.rawSha256 with
    | none =>
      rw [hdigest] at h
      cases h
    | some digest =>
      simp only [hdigest] at h
      obtain ⟨hsha, h⟩ := seq_ok.mp h
      obtain ⟨rows', hobserved, h⟩ := bind_ok.mp h
      obtain ⟨checked, hchecked, h⟩ := bind_ok.mp h
      cases h
      rw [refuse_ok, decide_eq_false_iff_not, not_not] at hsha
      have hdicts := (validatedRows_ok.mp hchecked).1
      obtain rfl := List.map_injective_iff.mpr (fun _ _ => Value.dict.inj) hdicts
      rw [hsha]
      exact ⟨rfl, hobserved, hchecked⟩
  · rintro ⟨hdigest, hobserved, hchecked⟩
    simp only [hdigest]
    refine seq_ok.mpr ⟨refuse_ok.mpr (by simp), bind_ok.mpr ⟨rows, hobserved, ?_⟩⟩
    exact bind_ok.mpr ⟨rows, hchecked, rfl⟩

/-- A study is loaded exactly if its raw file is the one of the manifest and holds, line
by line, one passing row for each identity that is planned. -/
theorem loadStudy_complete {allowCollected : Bool} {m : Manifest}
    (hstatus : m.status ∈ accepted allowCollected) (hpos : 0 < m.requestsPerBlock) (raw : Bytes)
    (rows : List Row) :
    loadStudy lib allowCollected m raw = .ok rows ↔
      m.rawSha256 = some (lib.sha256 raw) ∧ m.schedule ≠ [] ∧
      (m.schedule.map Block.key).Nodup ∧
      (lines raw).map lib.loads = rows.map (fun row => .ok (.dict row)) ∧
      (rows.map identity).Perm ((planned m).map Identity.values) ∧
      ∀ row ∈ rows, Passes row := by
  rw [loadStudy_ok]
  constructor
  · rintro ⟨-, hdigest, hobserved, hchecked⟩
    obtain ⟨-, hne, hpass, -⟩ := validatedRows_ok.mp hchecked
    obtain ⟨expected, hexpected, hobserved⟩ := bind_ok.mp hobserved
    obtain ⟨rfl, hnodup, -⟩ := expect_ok.mp hexpected
    obtain ⟨hlines, hperm, -⟩ := (observe_ok fun row hrow => (hpass row hrow).1).mp hobserved
    refine ⟨hdigest, fun hempty => hne ?_, (nodup_planned hpos).mp hnodup, hlines, hperm, hpass⟩
    rw [List.nil_append, planned, hempty, List.flatMap_nil, List.map_nil] at hperm
    exact List.map_eq_nil_iff.mp (List.perm_nil.mp hperm)
  · rintro ⟨hdigest, hne, hblocks, hlines, hperm, hpass⟩
    have hnodup := (nodup_planned hpos).mpr hblocks
    have hobserved : observations lib m (lib.sha256 raw) raw = .ok rows :=
      bind_ok.mpr ⟨planned m, expect_ok.mpr ⟨rfl, hnodup, by simp⟩,
        (observe_ok fun row hrow => (hpass row hrow).1).mpr ⟨hlines, hperm, rfl⟩⟩
    have hidentities : (rows.map identity).Nodup :=
      hperm.nodup_iff.mpr (hnodup.map fun _ _ => Identity.values_injective)
    have hrows : rows ≠ [] := by
      rintro rfl
      have hempty : planned m = [] := List.map_eq_nil_iff.mp (List.nil_perm.mp hperm)
      obtain ⟨b, hb⟩ := List.exists_mem_of_ne_nil _ hne
      have hfirst := List.mem_flatMap.mpr ⟨b, hb, first_mem hpos b⟩
      rw [← planned, hempty] at hfirst
      cases hfirst
    exact ⟨hstatus, hdigest, hobserved, validatedRows_ok.mpr ⟨rfl, hrows, hpass, hidentities⟩⟩

end

/-! ## The setting of the tests -/

/-- The row of a request that timed out. -/
def mockRowOf (mode phase : Text) (id : ℤ) : Row :=
  [("cache_status", .null), ("condition", .str "GOOD"), ("decoded_bytes", .null),
    ("encoded_bytes", .int 0), ("field_coverage", .null), ("item_retention", .null),
    ("latency_ms", .float .zero), ("mode", .str (.ofText mode)), ("phase", .str (.ofText phase)),
    ("reduced", .null), ("request_id", .int id), ("required_values_preserved", .null),
    ("schema_version", .int 2), ("started_utc", .str ""), ("status", .int 0),
    ("success", .bool false), ("system", .str (.ofText mode)), ("timeout", .bool true),
    ("transport_complete", .bool false), ("trial_id", .str "trial_001"),
    ("valid_response", .bool false)]

def mockRow : Row := mockRowOf "full" "measured" 1

theorem passes_mockRow : Passes mockRow := by
  refine ⟨?_, ?_⟩ <;> decide +kernel

/-- Two blocks, and the last two requests are not in their order. -/
def mockRows : List Row :=
  [mockRowOf "full" "warmup" 1, mockRow, mockRowOf "full" "measured" 2,
    mockRowOf "removal" "warmup" 1, mockRowOf "removal" "measured" 2,
    mockRowOf "removal" "measured" 1]

def mockLine (row : Row) : Bytes := utf8 (Value.dumps mockRepr [' '] (.dict row) ++ ['\n'])

def mockRaw : Bytes := mockRows.flatMap mockLine

/-- `json.loads` of UTF-8, and the digest of the file. -/
noncomputable def mockStudyLibraries : Libraries where
  loads line := match (utf8Decode line).bind fun t =>
      Value.loads mockNumbers.int mockNumbers.float (.ofText t) with
    | some v => .ok v
    | none => .error (.valueError [])
  sha256 _ := "01c2be05d24b7dbbc7b0c0a9feaddbb426d6e4a34ab77dcc4ed00c1bd345af1a"

def mockManifest : Manifest where
  status := "complete"
  rawSha256 := some "01c2be05d24b7dbbc7b0c0a9feaddbb426d6e4a34ab77dcc4ed00c1bd345af1a"
  condition := "GOOD"
  schedule := [⟨"trial_001", 1, "full"⟩, ⟨"trial_001", 2, "removal"⟩]
  warmupRequests := 1
  requestsPerBlock := 2

theorem plain_mockRowOf (mode phase : Text) (id : ℤ) :
    Value.Plain (.dict (mockRowOf mode phase id)) := by
  have hkeys : (mockRow.map Prod.fst).Nodup := by decide +kernel
  have hzero : Numeric.Binary64.zero.isFinite = true := rfl
  refine ⟨hkeys, ?_⟩
  simp only [mockRowOf, Value.PlainMembers, Value.Plain, Value.scalar_ofText, hzero, and_self]

theorem loads_mockLine (mode phase : Text) (id : ℤ) :
    mockStudyLibraries.loads (mockLine (mockRowOf mode phase id)) =
      .ok (.dict (mockRowOf mode phase id)) := by
  have hread : Value.loads mockNumbers.int mockNumbers.float
      (.ofText (Value.dumps mockRepr [' '] (.dict (mockRowOf mode phase id)) ++ ['\n'])) =
        some (.dict (mockRowOf mode phase id)) :=
    Value.loads_dumps_dict mockNumbers_faithful.converts
      (by simp [Rfc8259.Ws]) (plain_mockRowOf mode phase id) (by simp [Json.isWs])
  simp only [mockStudyLibraries, mockLine, utf8Decode_utf8, Option.bind_some, hread]

theorem loadStudy_complete_blocks :
    loadStudy mockStudyLibraries false mockManifest mockRaw = .ok mockRows := by
  have hlines : lines mockRaw = mockRows.map mockLine := by decide +kernel
  have hread : ∀ row ∈ mockRows, mockStudyLibraries.loads (mockLine row) = .ok (.dict row) := by
    simp only [mockRows, mockRow, List.forall_mem_cons, loads_mockLine, true_and,
      List.not_mem_nil, IsEmpty.forall_iff, implies_true]
  have hpasses : (mockRows.all fun row =>
      decide (checkIdentity row = .ok ()) && decide (checkContents row = .ok ())) = true := by
    decide +kernel
  refine (loadStudy_complete (by decide) (by decide) mockRaw mockRows).mpr
    ⟨rfl, List.cons_ne_nil _ _, by decide +kernel, ?_, by decide +kernel, fun row hrow => ?_⟩
  · rw [hlines, List.map_map]
    exact List.map_congr_left hread
  · obtain ⟨hidentity, hcontents⟩ := Bool.and_eq_true_iff.mp (List.all_eq_true.mp hpasses row hrow)
    exact ⟨of_decide_eq_true hidentity, of_decide_eq_true hcontents⟩

end Study
end AdaptiveGateway
