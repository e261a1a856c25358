/-
Studies that nothing interrupts.

A run of the program in which nothing is raised from outside is followed command by
command.  It writes what the requests of the plan have come to, line by line, and this is
what is read back, validated and analysed.
-/
import AdaptiveGateway.Study.RunStudy

namespace AdaptiveGateway
namespace Study
namespace RunStudy

open Codec Python Numeric Concurrent

/-! ## Studies that nothing interrupts -/

section

variable (rt : Runtime) (args : Options) (now : Text) (results : Phase → List (Nat × Observed))

def outside : Cmd → Outside
  | .measure p => ⟨now, results p⟩
  | _ => ⟨now, []⟩

def collectedRows (p : Phase) : List Row := p.rows rt.decoders args.toArgs (results p)

/-- The phases with their rows. -/
def endedWith (ps : List Phase) : List (Phase × List Row) :=
  ps.map fun p => (p, collectedRows rt args results p)

/-- While the rows are collected, with this much in the raw file. -/
def holding (m : Live) (raw : Bytes) (ended : List (Phase × List Row)) : World :=
  ⟨some ⟨⟨some (.whole m), some raw, none⟩, none⟩, m, ended⟩

abbrev Returns {α : Type} : Program α → World → α → World → Prop :=
  Solo.Returns (perform rt args) (outside now results)

end

section

variable {rt : Runtime} {args : Options} {now : Text} {results : Phase → List (Nat × Observed)}
variable {m : Live} {ended : List (Phase × List Row)}

theorem returns_writeLine {row : Row} (hrow : (writeRow rt.numbers row).isSome) (raw : Bytes) :
    Returns rt args now results (writeLine rt row) (holding m raw ended) ()
      (holding m (raw ++ lineBytes rt row) ended) := by
  rw [writeLine, lineBytes]
  cases hline : writeRow rt.numbers row with
  | none =>
    rw [hline] at hrow
    cases hrow
  | some line =>
    have hstep : ∀ bs, ∀ b ∈ utf8 line, Returns rt args now results (file (.append b))
        (holding m (raw ++ bs) ended) () (holding m (raw ++ (bs ++ [b])) ended) := by
      intro bs b _
      rw [← List.append_assoc]
      exact Solo.Returns.issue rfl
    have hloop := Solo.Returns.forEach (S := fun bs => holding m (raw ++ bs) ended) hstep
    rw [List.append_nil] at hloop
    exact hloop

theorem returns_collectPhase {p : Phase}
    (hrows : ∀ row ∈ collectedRows rt args results p, (writeRow rt.numbers row).isSome)
    (raw : Bytes) :
    Returns rt args now results (collectPhase rt p) (holding m raw ended) ()
      (holding m (raw ++ (collectedRows rt args results p).flatMap (lineBytes rt))
        (ended ++ [(p, collectedRows rt args results p)])) := by
  have hstep : ∀ done, ∀ row ∈ collectedRows rt args results p,
      Returns rt args now results (writeLine rt row)
        (holding m (raw ++ done.flatMap (lineBytes rt)) ended) ()
        (holding m (raw ++ (done ++ [row]).flatMap (lineBytes rt)) ended) := by
    intro done row hrow
    rw [List.flatMap_append, List.flatMap_singleton, ← List.append_assoc]
    exact returns_writeLine (hrows row hrow) _
  have hloop := Solo.Returns.forEach
    (S := fun rows => holding m (raw ++ rows.flatMap (lineBytes rt)) ended) hstep
  rw [List.flatMap_nil, List.append_nil] at hloop
  exact Solo.Returns.bind (Solo.Returns.issue rfl)
    (Solo.Returns.bind hloop (Solo.Returns.issue rfl))

theorem returns_collect
    (hrows : ∀ p ∈ planPhases rt.rng args.toArgs, ∀ row ∈ collectedRows rt args results p,
      (writeRow rt.numbers row).isSome) :
    Returns rt args now results (collect rt args)
      ⟨some ⟨⟨some (.whole m), none, none⟩, none⟩, m, []⟩ ()
      (holding m (written rt (endedWith rt args results (planPhases rt.rng args.toArgs)))
        (endedWith rt args results (planPhases rt.rng args.toArgs))) := by
  refine Solo.Returns.bind (t := holding m [] []) (Solo.Returns.issue rfl) ?_
  refine Solo.Returns.forEach (S := fun ps => holding m
    (written rt (endedWith rt args results ps)) (endedWith rt args results ps)) fun done p hp => ?_
  have hphase : Returns rt args now results (collectPhase rt p)
      (holding m (written rt (endedWith rt args results done)) (endedWith rt args results done)) ()
      _ := returns_collectPhase (hrows p hp) _
  have hended : endedWith rt args results (done ++ [p]) =
      endedWith rt args results done ++ [(p, collectedRows rt args results p)] := by
    rw [endedWith, List.map_append]
    rfl
  have hwritten : written rt (endedWith rt args results (done ++ [p])) =
      written rt (endedWith rt args results done) ++
        (collectedRows rt args results p).flatMap (lineBytes rt) := by
    rw [hended, written, written, List.flatMap_append, List.flatMap_singleton]
  rw [hwritten, hended]
  exact hphase

theorem returns_replaceManifest (f : Files) :
    Returns rt args now results replaceManifest ⟨some ⟨f, none⟩, m, ended⟩ ()
      ⟨some ⟨{ f with manifest := some (.whole m) }, none⟩, m, ended⟩ :=
  Solo.Returns.bind (Solo.Returns.bind (Solo.Returns.issue rfl) (Solo.Returns.issue rfl))
    (Solo.Returns.issue rfl)

theorem returns_raises {α : Type} {o : Except Exc α} {a : α} (h : o = .ok a) (w : World) :
    Returns rt args now results (raises o) w a w := by
  rw [h]
  exact Solo.Returns.ret a w

theorem returns_loadStream {raw : Bytes} (hstatus : m.status = ("collected" : Text))
    (hhash : m.rawSha256 = some (rt.lib.sha256 raw)) :
    Returns rt args now results (loadStream rt) (holding m raw ended)
      (observationsStream rt.lib m.toManifest (rt.lib.sha256 raw) raw) (holding m raw ended) := by
  have haccepted : refuse (decide (m.status ∉ accepted true)) "Study is not finished" = .ok () := by
    rw [hstatus]
    decide
  have hsame : refuse (decide (rt.lib.sha256 raw ≠ rt.lib.sha256 raw))
      "Raw artifact hash mismatch" = .ok () := refuse_ok.mpr (by simp)
  refine Solo.Returns.bind (a := m) (Solo.Returns.issue rfl) ?_
  refine Solo.Returns.bind (returns_raises haccepted _) ?_
  refine Solo.Returns.bind (a := raw) (Solo.Returns.issue rfl) ?_
  refine Solo.Returns.bind (a := rt.lib.sha256 raw) (returns_raises ?_ _) ?_
  · rw [hhash]
  refine Solo.Returns.bind (returns_raises hsame _) ?_
  exact Solo.Returns.bind (a := raw) (Solo.Returns.issue rfl) (Solo.Returns.ret _ _)

/-- The manifest in memory when the study ends like this. -/
def lastManifest (rt : Runtime) (args : Options) (now : Text) (raw : Bytes) (n : Counters) :
    Live :=
  { initial rt args with
    rawSha256 := some (rt.lib.sha256 raw)
    completedUtc := some now
    invalid2xx := some n.invalid
    nonvalidAttempts := some n.smokeFailures
    status := finalStatus (failedGate args n) }

end

section

variable {rt : Runtime} {args : Options} {now : Text} {results : Phase → List (Nat × Observed)}
variable {result : Analysis}

/-- The rows that are analysed when these have been written. -/
def storedRows (rt : Runtime) (args : Options) (raw : Bytes) : Generator :=
  observationsStream rt.lib (makeManifest rt.rng args.toArgs) (rt.lib.sha256 raw) raw

theorem returns_finalize {raw : Bytes} {ended : List (Phase × List Row)}
    (hended : ended = endedWith rt args results (planPhases rt.rng args.toArgs))
    (hraw : raw = written rt ended)
    (hrows : ∀ p ∈ planPhases rt.rng args.toArgs, ∀ row ∈ collectedRows rt args results p,
      (writeRow rt.numbers row).isSome)
    (hresult : (storedRows rt args raw).counted.1.analyze rt.arith rt.order = .ok result) :
    Returns rt args now results (finalize rt args)
      ⟨some ⟨⟨some (.whole (initial rt args)), none, none⟩, none⟩, initial rt args, []⟩
      (failedGate args (storedRows rt args raw).counted.2)
      ⟨some ⟨⟨some (.whole (lastManifest rt args now raw (storedRows rt args raw).counted.2)),
        some raw, some (.whole result)⟩, none⟩,
        lastManifest rt args now raw (storedRows rt args raw).counted.2, ended⟩ := by
  subst hended hraw
  refine Solo.Returns.bind (returns_collect hrows) ?_
  refine Solo.Returns.bind (Solo.Returns.issue rfl) ?_
  refine Solo.Returns.bind (Solo.Returns.issue rfl) ?_
  refine Solo.Returns.bind (Solo.Returns.issue rfl) ?_
  refine Solo.Returns.bind (Solo.Returns.issue rfl) ?_
  refine Solo.Returns.bind (Solo.Returns.issue rfl) ?_
  refine Solo.Returns.bind (returns_replaceManifest _) ?_
  refine Solo.Returns.bind (returns_loadStream rfl rfl) ?_
  refine Solo.Returns.bind (returns_raises hresult _) ?_
  refine Solo.Returns.bind (Solo.Returns.issue rfl) ?_
  refine Solo.Returns.bind (Solo.Returns.issue rfl) ?_
  refine Solo.Returns.bind (Solo.Returns.issue rfl) ?_
  refine Solo.Returns.bind (Solo.Returns.bind (Solo.Returns.issue rfl) (Solo.Returns.issue rfl)) ?_
  refine Solo.Returns.bind (returns_replaceManifest _) ?_
  exact Solo.Returns.ret _ _

/-- A study that nothing interrupts, and whose rows can be analysed, is finished. -/
theorem main_returns (hprepare : args.prepareOnly = false) {raw : Bytes}
    {ended : List (Phase × List Row)}
    (hended : ended = endedWith rt args results (planPhases rt.rng args.toArgs))
    (hraw : raw = written rt ended)
    (hrows : ∀ p ∈ planPhases rt.rng args.toArgs, ∀ row ∈ collectedRows rt args results p,
      (writeRow rt.numbers row).isSome)
    (hresult : (storedRows rt args raw).counted.1.analyze rt.arith rt.order = .ok result) :
    Returns rt args now results (main rt args) (World.start rt args none)
      (if failedGate args (storedRows rt args raw).counted.2 then 2 else 0)
      ⟨some ⟨⟨some (.whole (lastManifest rt args now raw (storedRows rt args raw).counted.2)),
        some raw, some (.whole result)⟩, none⟩,
        lastManifest rt args now raw (storedRows rt args raw).counted.2, ended⟩ := by
  refine Solo.Returns.bind (Solo.Returns.issue rfl) ?_
  refine Solo.Returns.bind (Solo.Returns.bind (Solo.Returns.issue rfl) (Solo.Returns.issue rfl)) ?_
  rw [if_neg (by simp [hprepare])]
  refine Solo.Returns.bind (Solo.Returns.except ?_) (Solo.Returns.ret _ _)
  exact returns_finalize hended hraw hrows hresult

end

/-! ## What is written is read back -/

/-- What is relied on: bytes are loaded as the text that they encode. -/
structure Runtime.Sound (rt : Runtime) : Prop where
  decoders : rt.decoders.Sound
  numbers : rt.numbers.Faithful
  loads : ∀ t v, readRow rt.numbers t = some v → rt.lib.loads (utf8 t) = .ok v

theorem utf8_append (t u : Text) : utf8 (t ++ u) = utf8 t ++ utf8 u := List.flatMap_append

theorem newline_not_mem {t : Text} (h : t.all Value.isPrintable = true) :
    (10 : UInt8) ∉ utf8 t := by
  intro hmem
  obtain ⟨c, hc, hbyte⟩ := List.mem_flatMap.mp hmem
  have hprintable := of_decide_eq_true (List.all_eq_true.mp h c hc)
  have hval : c.val.toNat = c.toNat := rfl
  rw [String.utf8EncodeChar, if_pos (by rw [hval]; omega), List.mem_singleton] at hbyte
  have hbyte' := congrArg UInt8.toNat hbyte
  rw [UInt8.toNat_ofNat', hval, Nat.mod_eq_of_lt (by omega)] at hbyte'
  have hten : (10 : UInt8).toNat = 10 := rfl
  omega

/-- A row that has been read back. -/
structure Stored (rt : Runtime) (row : Row) : Prop where
  line : ∃ t : Text, writeRow rt.numbers row = some (t ++ ['\n']) ∧
    t.all Value.isPrintable = true
  loaded : rt.lib.loads (lineBytes rt row) = .ok (.dict (Value.sortItems row))
  passes : Passes (Value.sortItems row)
  identity : identity (Value.sortItems row) = Study.identity row

theorem Stored.isSome {rt : Runtime} {row : Row} (h : Stored rt row) :
    (writeRow rt.numbers row).isSome := by
  obtain ⟨t, ht, -⟩ := h.line
  rw [ht]
  rfl

/-- Each row is a line of the file. -/
theorem lines_rows {rt : Runtime} {rows : List Row} (h : ∀ row ∈ rows, Stored rt row) :
    (lines (rows.flatMap (lineBytes rt))).map rt.lib.loads =
      (rows.map Value.sortItems).map fun row => .ok (.dict row) := by
  induction rows with
  | nil => rfl
  | cons row rows ih =>
    have hrow := h row List.mem_cons_self
    obtain ⟨t, ht, hprintable⟩ := hrow.line
    have hline : lineBytes rt row = utf8 t ++ [10] := by
      rw [lineBytes, ht, Option.getD_some, utf8_append]
      rfl
    have hlines : lines ((row :: rows).flatMap (lineBytes rt)) =
        lineBytes rt row :: lines (rows.flatMap (lineBytes rt)) := by
      rw [List.flatMap_cons, hline, List.append_assoc]
      exact lines_line (newline_not_mem hprintable) _
    rw [hlines, List.map_cons, hrow.loaded, ih fun r hr => h r (List.mem_cons_of_mem row hr)]
    rfl

theorem stored_measureRequest {rt : Runtime} (hrt : rt.Sound) {req : Request} (hreq : req.Valid)
    (clock : Clock) {o : Outcome}
    (hstatus : o.status.getD 0 = 0 ∨ 100 ≤ o.status.getD 0 ∧ o.status.getD 0 ≤ 599) :
    Stored rt (measureRequest rt.decoders req clock o) := by
  have hchecked := measurement_checked hrt.decoders req clock o
  obtain ⟨line, hwrite, hread⟩ := read_written hrt.numbers hchecked
  have hwrite' : writeRow rt.numbers (measureRequest rt.decoders req clock o) = some line := hwrite
  constructor
  · have hfinite : Value.finite (.dict (measureRequest rt.decoders req clock o)) = true :=
      Value.finite_of_plain _ (plain_row hchecked)
    exact ⟨_, if_pos hfinite, Value.dumps_printable hrt.numbers.repr_number rfl _⟩
  · rw [lineBytes, hwrite']
    exact hrt.loads line _ hread
  · refine (passes_sorted_iff hreq hchecked).mpr ?_
    rw [show (measurement rt.decoders req clock o).transport.status = _ from status_transport o]
    exact hstatus
  · rw [identity_measureRequest]
    exact (fields_sorted (measurement rt.decoders req clock o)).identity

/-! ## The rows of the plan -/

section

variable {rt : Runtime} {args : Options} {results : Phase → List (Nat × Observed)}

/-- Each request has ended once, and its response has no status that the analysis does not
know. -/
structure Answered (rt : Runtime) (args : Options) (results : Phase → List (Nat × Observed)) :
    Prop where
  once : ∀ p ∈ planPhases rt.rng args.toArgs,
    ((results p).map Prod.fst).Perm (List.range' 1 p.count)
  known : ∀ p ∈ planPhases rt.rng args.toArgs, ∀ r ∈ results p, r.2.2.status.getD 0 = 0 ∨
    100 ≤ r.2.2.status.getD 0 ∧ r.2.2.status.getD 0 ≤ 599

theorem mem_plan {b : PlannedBlock} (h : b ∈ plan rt.rng args.toArgs) :
    b.trialId ≠ [] ∧ b.mode ∈ args.modes := by
  obtain ⟨trial, -, hb⟩ := List.mem_flatMap.mp h
  obtain ⟨e, he, rfl⟩ := List.mem_map.mp hb
  refine ⟨List.cons_ne_nil _ _, ?_⟩
  have hmode := (rotated_perm _ trial).mem_iff.mp (List.fst_mem_of_mem_zipIdx he)
  exact (sortedBy_perm id args.modes).mem_iff.mp ((rt.rng.perm _ _).mem_iff.mp hmode)

theorem mem_planPhases {p : Phase} (h : p ∈ planPhases rt.rng args.toArgs) :
    p.block ∈ plan rt.rng args.toArgs ∧
      Str.ofText p.phase ∈ (["warmup", "measured"] : List Str) := by
  obtain ⟨b, hb, hp⟩ := List.mem_flatMap.mp h
  simp only [List.mem_cons, List.not_mem_nil, or_false] at hp
  rcases hp with rfl | rfl
  · exact ⟨hb, List.mem_cons_self⟩
  · exact ⟨hb, List.mem_cons_of_mem _ List.mem_cons_self⟩

theorem known_mode {mode : Text} (h : mode ∈ FIXED_MODES ∨ mode = ("adaptive" : Text)) :
    Str.ofText mode ∈ MODES := by
  simp only [FIXED_MODES, List.mem_cons, List.not_mem_nil, or_false, or_assoc] at h
  rcases h with rfl | rfl | rfl | rfl | rfl <;> decide

theorem valid_request (hargs : args.toArgs.Valid)
    (hcondition : Str.ofText args.condition ∈ CONDITIONS) {p : Phase}
    (hp : p ∈ planPhases rt.rng args.toArgs) {id : Nat} (hid : 1 ≤ id) :
    (p.request args.toArgs id).Valid := by
  obtain ⟨hblock, hphase⟩ := mem_planPhases hp
  obtain ⟨htrial, hmode⟩ := mem_plan hblock
  exact ⟨htrial, hcondition, known_mode (hargs.known _ hmode), hphase, hid⟩

/-- Every row of an answered plan is read back. -/
theorem stored_collectedRows (hrt : rt.Sound) (hargs : args.toArgs.Valid)
    (hcondition : Str.ofText args.condition ∈ CONDITIONS) (h : Answered rt args results)
    {p : Phase} (hp : p ∈ planPhases rt.rng args.toArgs) :
    ∀ row ∈ collectedRows rt args results p, Stored rt row := by
  intro row hrow
  obtain ⟨r, hr, rfl⟩ := List.mem_map.mp ((sortedBy_perm _ _).mem_iff.mp hrow)
  have hid := (h.once p hp).mem_iff.mp (List.mem_map_of_mem hr)
  exact stored_measureRequest hrt
    (valid_request hargs hcondition hp (List.mem_range'_1.mp hid).1) r.2.1 (h.known p hp r hr)

/-- The rows in the order in which they are written. -/
def allRows (rt : Runtime) (args : Options) (results : Phase → List (Nat × Observed)) : List Row :=
  (planPhases rt.rng args.toArgs).flatMap (collectedRows rt args results)

theorem written_allRows : written rt (endedWith rt args results (planPhases rt.rng args.toArgs)) =
    (allRows rt args results).flatMap (lineBytes rt) := by
  rw [written, endedWith, allRows, List.flatMap_map, List.flatMap_assoc]

theorem identities_allRows (hrt : rt.Sound) (hargs : args.toArgs.Valid)
    (hcondition : Str.ofText args.condition ∈ CONDITIONS) (h : Answered rt args results) :
    ((allRows rt args results).map Value.sortItems).map identity =
      (planned (makeManifest rt.rng args.toArgs)).map Identity.values := by
  rw [← identities_planPhases, List.map_map, List.map_map, allRows, List.map_flatMap,
    List.map_flatMap]
  refine List.flatMap_congr fun p hp => ?_
  have hids : (collectedRows rt args results p).map identity = _ :=
    identities_rows p (h.once p hp)
  refine Eq.trans ?_ hids
  exact List.map_congr_left fun row hrow =>
    (stored_collectedRows hrt hargs hcondition h hp row hrow).identity

theorem plan_ne_nil (hargs : args.toArgs.Valid) : plan rt.rng args.toArgs ≠ [] := by
  intro hnil
  have hkeys : (plan rt.rng args.toArgs).map PlannedBlock.key = _ := keys_plan
  rw [hnil, List.map_nil] at hkeys
  have hfull : ("full" : Text) ∈ rotated (rt.rng.shuffle args.seed (sortedBy id args.modes)) 0 := by
    refine (rotated_perm _ 0).mem_iff.mpr ((rt.rng.perm _ _).mem_iff.mpr ?_)
    exact (sortedBy_perm id args.modes).mem_iff.mpr (hargs.fixed _ List.mem_cons_self)
  have hmem : (trialId (0 + 1), ("full" : Text)) ∈ ([] : List (Text × Text)) := by
    rw [hkeys]
    exact List.mem_flatMap.mpr ⟨0, List.mem_range.mpr hargs.trials, List.mem_map_of_mem hfull⟩
  cases hmem

theorem isMeasured_of_identity {row : Row} {p : Identity} (h : identity row = p.values)
    (hphase : p.phase = ("measured" : Str)) : isMeasured row = true := by
  simp only [identity, IDENTITY, List.map_cons, Identity.values, List.cons.injEq, hphase] at h
  rw [isMeasured, h.2.2.2.1]
  exact Value.eq_str.mpr rfl

/-- The manifest that is loaded. -/
def collectedManifest (rt : Runtime) (args : Options) (raw : Bytes) : Manifest :=
  { makeManifest rt.rng args.toArgs with
    status := "collected"
    rawSha256 := some (rt.lib.sha256 raw) }

/-- What an answered plan has written is loaded. -/
theorem loaded_allRows (hrt : rt.Sound) (hargs : args.toArgs.Valid)
    (hcondition : Str.ofText args.condition ∈ CONDITIONS) (h : Answered rt args results)
    {raw : Bytes} (hraw : raw = (allRows rt args results).flatMap (lineBytes rt)) :
    loadStudy rt.lib true (collectedManifest rt args raw) raw =
      .ok ((allRows rt args results).map Value.sortItems) := by
  have hstored : ∀ row ∈ allRows rt args results, Stored rt row := by
    intro row hrow
    obtain ⟨p, hp, hrow⟩ := List.mem_flatMap.mp hrow
    exact stored_collectedRows hrt hargs hcondition h hp row hrow
  have hstatus : ("collected" : Text) ∈ accepted true := by decide
  refine (loadStudy_complete (m := collectedManifest rt args raw) hstatus hargs.requests raw _).mpr
    ⟨rfl, fun hnil => plan_ne_nil hargs (List.map_eq_nil_iff.mp hnil), nodup_schedule hargs, ?_, ?_,
      ?_⟩
  · rw [hraw]
    exact lines_rows hstored
  · rw [identities_allRows hrt hargs hcondition h]
    exact List.Perm.refl _
  · intro row hrow
    obtain ⟨r, hr, rfl⟩ := List.mem_map.mp hrow
    exact (hstored r hr).passes

theorem exists_analysis (hrt : rt.Sound) (hargs : args.toArgs.Valid)
    (hcondition : Str.ofText args.condition ∈ CONDITIONS) (h : Answered rt args results)
    {raw : Bytes} (hraw : raw = (allRows rt args results).flatMap (lineBytes rt)) :
    ∃ result, (storedRows rt args raw).counted.1.analyze rt.arith rt.order = .ok result := by
  obtain ⟨-, -, hobserved, hchecked⟩ :=
    loadStudy_ok.mp (loaded_allRows hrt hargs hcondition h hraw)
  have hmeasured : ((allRows rt args results).map Value.sortItems).filter isMeasured ≠ [] := by
    obtain ⟨b, hb⟩ : ∃ b, b ∈ plan rt.rng args.toArgs :=
      List.exists_mem_of_ne_nil _ (plan_ne_nil hargs)
    have hfirst : _ ∈ planned (makeManifest rt.rng args.toArgs) := List.mem_flatMap.mpr
      ⟨_, List.mem_map_of_mem hb, first_mem (m := makeManifest rt.rng args.toArgs) hargs.requests _⟩
    have hvalues := List.mem_map_of_mem (f := Identity.values) hfirst
    rw [← identities_allRows hrt hargs hcondition h] at hvalues
    obtain ⟨row, hrow, hidentity⟩ := List.mem_map.mp hvalues
    exact List.ne_nil_of_mem
      (List.mem_filter.mpr ⟨hrow, isMeasured_of_identity hidentity rfl⟩)
  have hanalyze : ∃ result, analyze rt.arith rt.order
      (.iterator (((allRows rt args results).map Value.sortItems).map .dict)) = .ok result :=
    ⟨_, analyze_of_validated hchecked hmeasured⟩
  obtain ⟨result, hresult⟩ := hanalyze
  exact ⟨result, (counted_analyze hobserved hchecked).trans hresult⟩

/-- A study whose requests have all ended is finished if nothing interrupts it. -/
theorem uninterrupted_finishes (hrt : rt.Sound) (hargs : args.toArgs.Valid)
    (hcondition : Str.ofText args.condition ∈ CONDITIONS) (hprepare : args.prepareOnly = false)
    (h : Answered rt args results) (now : Text) :
    ∃ code w d m, Returns rt args now results (main rt args) (World.start rt args none) code w ∧
      w.out = some d ∧ d.manifest = some (.whole m) ∧ ∃ failed, m.status = finalStatus failed := by
  obtain ⟨result, hresult⟩ := exists_analysis hrt hargs hcondition h written_allRows
  have hmain : Returns rt args now results (main rt args) (World.start rt args none) _ _ :=
    main_returns hprepare rfl rfl (fun p hp row hrow =>
      (stored_collectedRows hrt hargs hcondition h hp row hrow).isSome) hresult
  exact ⟨_, _, _, _, hmain, rfl, rfl, _, rfl⟩

end

end RunStudy
end Study
end AdaptiveGateway
