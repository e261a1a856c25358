/-
A study that is interrupted does not look finished.

Between the first manifest and the last one nothing on the disk says that the study is
finished, so nothing has to be known of a run that is cut off there.  The last manifest
comes after everything that it stands for, and the manifest of a handler says that the
study was aborted.
-/
import AdaptiveGateway.Study.Completion

namespace AdaptiveGateway
namespace Study
namespace RunStudy

open Codec Python Numeric Concurrent

/-! ## A finished study -/

section

variable (rt : Runtime) (args : Options)

/-- What the last manifest of a study stands for. -/
structure Finished (f : Files) (ended : List (Phase × List Row)) (m : Live) (raw : Bytes)
    (rows : List Row) (result : Analysis) : Prop where
  plan : planned m.toManifest = planned (makeManifest rt.rng args.toArgs)
  phases : ended.map Prod.fst = planPhases rt.rng args.toArgs
  stored : f.raw = some raw
  content : raw = written rt ended
  hash : m.rawSha256 = some (rt.lib.sha256 raw)
  loaded : loadStudy rt.lib false m.toManifest raw = .ok rows
  analysed : analyze rt.arith rt.order (.iterator (rows.map .dict)) = .ok result
  analysis : f.analysis = some (.whole result)
  valid : m.status = ("complete" : Text) → ∀ row ∈ rows,
    succeeds row = true ∨ args.requireAllValid = true → flag row "valid_response" = true

/-- A manifest that says that the study is finished is that of a finished study. -/
def Sound (f : Files) (ended : List (Phase × List Row)) : Prop :=
  ∀ m, f.manifest = some (.whole m) → m.status ∈ accepted false →
    ∃ raw rows result, Finished rt args f ended m raw rows result

end

/-! ## Conditions -/

/-- A condition on the output directory, the manifest in memory and the phases that have
ended. -/
abbrev Cond : Type := Directory → Live → List (Phase × List Row) → Prop

/-- If there is a directory, the condition holds. -/
def On (K : Cond) (w : World) : Prop := ∀ d, w.out = some d → K d w.manifest w.ended

section

variable (rt : Runtime) (args : Options)

def Inv : World → Prop := On fun d _ ended => Sound rt args d.toFiles ended

abbrev Spec {α : Type} (K : Cond) (p : Program α) (L : α → Cond) : Prop :=
  Solo.Triple (perform rt args) (Inv rt args) (On K) p fun a => On (L a)

end

section

variable {rt : Runtime} {args : Options} {α : Type} {K : Cond}

theorem spec_file {c : FileCmd} {L : FileAns c → Cond}
    (h : ∀ d m ended a d', K d m ended → Sound rt args d.toFiles ended →
      performFile c m d = .ok (a, d') → Sound rt args d'.toFiles ended ∧ L a d' m ended) :
    Spec rt args K (file c) L := by
  refine Solo.Triple.issue fun x w a t hI hK hperform => ?_
  rw [perform] at hperform
  cases hout : w.out with
  | none =>
    rw [hout] at hperform
    cases hperform
  | some d =>
    rw [hout] at hperform
    cases hfile : performFile c w.manifest d with
    | error e =>
      simp only [there, bind, Except.bind, hfile] at hperform
      cases hperform
    | ok r =>
      simp only [there, bind, Except.bind, hfile] at hperform
      cases hperform
      obtain ⟨hsound, hL⟩ := h d w.manifest w.ended r.1 r.2 (hK d hout) (hI d hout) hfile
      refine ⟨fun d' hd' => ?_, fun d' hd' => ?_⟩
      · cases hd'
        exact hsound
      · cases hd'
        exact hL

theorem spec_assign {update : Live → Live} {L : Cond}
    (h : ∀ d m ended, K d m ended → L d (update m) ended) :
    Spec rt args K (assign update) fun _ => L := by
  refine Solo.Triple.issue fun x w a t hI hK hperform => ?_
  cases hperform
  exact ⟨hI, fun d hd => h d w.manifest w.ended (hK d hd)⟩

theorem spec_flush {p : Phase} {rows : List Row} {L : Cond}
    (h : ∀ d m ended, K d m ended →
      Sound rt args d.toFiles (ended ++ [(p, rows)]) ∧ L d m (ended ++ [(p, rows)])) :
    Spec rt args K (issue (.flush p rows)) fun _ => L := by
  refine Solo.Triple.issue fun x w a t _ hK hperform => ?_
  cases hperform
  exact ⟨fun d hd => (h d w.manifest w.ended (hK d hd)).1,
    fun d hd => (h d w.manifest w.ended (hK d hd)).2⟩

theorem spec_measure {p : Phase} : Spec rt args K (issue (.measure p)) fun _ => K := by
  refine Solo.Triple.issue fun x w a t hI hK hperform => ?_
  cases hperform
  exact ⟨hI, hK⟩

theorem spec_utcNow : Spec rt args K (issue .utcNow) fun _ => K := by
  refine Solo.Triple.issue fun x w a t hI hK hperform => ?_
  cases hperform
  exact ⟨hI, hK⟩

theorem spec_raises {o : Except Exc α} :
    Spec rt args K (raises o) fun a d m ended => K d m ended ∧ o = .ok a := by
  cases o with
  | ok a => exact Solo.Triple.ret a fun s _ hK d hd => ⟨hK d hd, rfl⟩
  | error e => exact Solo.Triple.raise _

theorem spec_bind {β : Type} {p : Program α} {f : α → Program β} {L : α → Cond} {M : β → Cond}
    (hp : Spec rt args K p L) (hf : ∀ a, Spec rt args (L a) (f a) M) :
    Spec rt args K (p >>= f) M := Solo.Triple.bind hp hf

theorem spec_forEach {β : Type} {f : β → Program Unit} {J : List β → Cond}
    (hf : ∀ done b, Spec rt args (J done) (f b) fun _ => J (done ++ [b])) (bs : List β) :
    Spec rt args (J []) (Prog.forEach f bs) fun _ => J bs :=
  Solo.Triple.forEach (J := fun done => On (J done)) hf [] bs

theorem spec_catch {p : Program α} {h : Raised → Program α} {L : α → Cond}
    (hp : Spec rt args K p L) (hh : ∀ e, Spec rt args (fun _ _ _ => True) (h e) L) :
    Spec rt args K (Prog.except p fun e => some (h e)) L :=
  Solo.Triple.catch hp fun e => (hh e).mono (fun _ _ _ _ _ => trivial) fun _ _ _ hL => hL

theorem Spec.mono {p : Program α} {L : Cond} {M N : α → Cond} (hp : Spec rt args L p M)
    (hpre : ∀ d m ended, K d m ended → L d m ended)
    (hpost : ∀ a d m ended, M a d m ended → N a d m ended) : Spec rt args K p N :=
  Solo.Triple.mono hp (fun _ _ hK d hd => hpre _ _ _ (hK d hd))
    fun a _ _ hM d hd => hpost a _ _ _ (hM d hd)

end

/-! ## Writing -/

section

variable {rt : Runtime} {args : Options}

/-- The manifest on the disk does not say that the study is finished. -/
def Unfinished (manifest : Option (File Live)) : Prop :=
  ∀ m, manifest = some (.whole m) → m.status ∉ accepted false

theorem Unfinished.sound {f : Files} (h : Unfinished f.manifest)
    (ended : List (Phase × List Row)) : Sound rt args f ended :=
  fun m hm hstatus => absurd hstatus (h m hm)

theorem performFile_create {d d' : Directory} {m : Live} {a : Unit}
    (h : performFile (.createManifest .pending) m d = .ok (a, d')) :
    d' = { d with pending := some .cut } := by
  cases hpending : d.pending with
  | none =>
    rw [performFile, hpending] at h
    cases h
    rfl
  | some file =>
    rw [performFile, hpending] at h
    cases h

theorem performFile_replace {d d' : Directory} {m : Live} {a : Unit} {file : File Live}
    (hpending : d.pending = some file) (h : performFile .replace m d = .ok (a, d')) :
    d' = { d with manifest := some file, pending := none } := by
  rw [performFile, hpending] at h
  cases h
  rfl

/-- The manifest in memory takes the place of the one on the disk. -/
theorem spec_replaceManifest {K L : Files → Live → List (Phase × List Row) → Prop}
    (h : ∀ f m ended, K f m ended → Sound rt args { f with manifest := some (.whole m) } ended ∧
      L { f with manifest := some (.whole m) } m ended) :
    Spec rt args (fun d => K d.toFiles) replaceManifest fun _ d => L d.toFiles := by
  refine spec_bind (L := fun _ d m ended => K d.toFiles m ended ∧ d.pending = some (.whole m))
    (spec_bind (L := fun _ d => K d.toFiles) (spec_file ?_) fun _ => spec_file ?_)
    fun _ => spec_file ?_
  · intro d m ended a d' hK hsound hperform
    rw [performFile_create hperform]
    exact ⟨hsound, hK⟩
  · intro d m ended a d' hK hsound hperform
    cases hperform
    exact ⟨hsound, hK, rfl⟩
  · intro d m ended a d' hK _ hperform
    rw [performFile_replace hK.2 hperform]
    exact h d.toFiles m ended hK.1

theorem spec_writeAnalysis {result : Analysis}
    {K : Files → Live → List (Phase × List Row) → Prop}
    (hfree : ∀ f m ended file, K f m ended →
      Unfinished f.manifest ∧ K { f with analysis := file } m ended) :
    Spec rt args (fun d => K d.toFiles) (writeAnalysis result) fun _ d m ended =>
      K d.toFiles m ended ∧ d.analysis = some (.whole result) := by
  refine spec_bind (L := fun _ d => K d.toFiles) (spec_file ?_) fun _ => spec_file ?_
  · intro d m ended a d' hK _ hperform
    obtain ⟨hopen, hK'⟩ := hfree _ _ _ (some .cut) hK
    cases hanalysis : d.analysis with
    | none =>
      rw [performFile, hanalysis] at hperform
      cases hperform
      exact ⟨Unfinished.sound (f := { d.toFiles with analysis := some .cut }) hopen ended, hK'⟩
    | some file =>
      rw [performFile, hanalysis] at hperform
      cases hperform
  · intro d m ended a d' hK _ hperform
    obtain ⟨hopen, hK'⟩ := hfree _ _ _ (some (.whole result)) hK
    cases hperform
    refine ⟨?_, hK', rfl⟩
    exact Unfinished.sound (f := { d.toFiles with analysis := some (.whole result) }) hopen ended

end

/-! ## Collecting -/

section

variable (rt : Runtime) (args : Options)

/-- Before anything has been collected. -/
def started : Cond := fun d m ended =>
  Unfinished d.manifest ∧ m = initial rt args ∧ ended = []

/-- These phases have ended, and `tail` has been written of the next one. -/
structure Collecting (done : List Phase) (tail : Bytes) (f : Files) (m : Manifest)
    (ended : List (Phase × List Row)) : Prop where
  unfinished : Unfinished f.manifest
  plan : planned m = planned (makeManifest rt.rng args.toArgs)
  phases : ended.map Prod.fst = done
  stored : f.raw = some (written rt ended ++ tail)

abbrev collecting (done : List Phase) (tail : Bytes) : Cond :=
  fun d m => Collecting rt args done tail d.toFiles m.toManifest

end

section

variable {rt : Runtime} {args : Options} {done : List Phase}

theorem spec_append (tail : Bytes) (b : UInt8) :
    Spec rt args (collecting rt args done tail) (file (.append b))
      fun _ => collecting rt args done (tail ++ [b]) := by
  refine spec_file fun d m ended a d' hK _ hperform => ?_
  rw [performFile, hK.stored] at hperform
  cases hperform
  refine ⟨fun m hm hstatus => absurd hstatus (hK.unfinished m hm), hK.unfinished, hK.plan,
    hK.phases, ?_⟩
  rw [List.append_assoc]

theorem spec_writeLine (tail : Bytes) (row : Row) :
    Spec rt args (collecting rt args done tail) (writeLine rt row)
      fun _ => collecting rt args done (tail ++ lineBytes rt row) := by
  rw [writeLine, lineBytes]
  cases writeRow rt.numbers row with
  | none => exact Solo.Triple.raise _
  | some line =>
    have hstep : ∀ bs b, Spec rt args (collecting rt args done (tail ++ bs))
        (file (.append b)) fun _ => collecting rt args done (tail ++ (bs ++ [b])) := by
      intro bs b
      rw [← List.append_assoc]
      exact spec_append (tail ++ bs) b
    have hloop := spec_forEach (J := fun bs => collecting rt args done (tail ++ bs)) hstep
      (utf8 line)
    rw [List.append_nil] at hloop
    exact hloop

theorem spec_rows (rows : List Row) :
    Spec rt args (collecting rt args done []) (Prog.forEach (writeLine rt) rows)
      fun _ => collecting rt args done (rows.flatMap (lineBytes rt)) := by
  refine spec_forEach (J := fun rows => collecting rt args done (rows.flatMap (lineBytes rt)))
    (fun rows row => ?_) rows
  rw [List.flatMap_append, List.flatMap_singleton]
  exact spec_writeLine _ row

theorem spec_collectPhase (p : Phase) :
    Spec rt args (collecting rt args done []) (collectPhase rt p)
      fun _ => collecting rt args (done ++ [p]) [] := by
  refine spec_bind spec_measure fun rows => spec_bind (spec_rows rows) fun _ => spec_flush ?_
  intro d m ended hK
  refine ⟨Unfinished.sound hK.unfinished _, hK.unfinished, hK.plan, ?_, ?_⟩
  · rw [List.map_append, hK.phases]
    rfl
  · rw [hK.stored, written, written, List.flatMap_append, List.flatMap_singleton, List.append_nil]

theorem spec_collect : Spec rt args (started rt args) (collect rt args)
    fun _ => collecting rt args (planPhases rt.rng args.toArgs) [] := by
  refine spec_bind (L := fun _ => collecting rt args [] []) (spec_file ?_) fun _ =>
    spec_forEach (J := fun done => collecting rt args done []) (fun _ p => spec_collectPhase p)
      (planPhases rt.rng args.toArgs)
  rintro d m ended a d' ⟨hopen, rfl, rfl⟩ _ hperform
  cases hraw : d.raw with
  | none =>
    rw [performFile, hraw] at hperform
    cases hperform
    exact ⟨fun m hm hstatus => absurd hstatus (hopen m hm), hopen, rfl, rfl, rfl⟩
  | some raw =>
    rw [performFile, hraw] at hperform
    cases hperform

end

/-! ## Loading and analysing -/

section

variable (rt : Runtime) (args : Options)

abbrev collected : Cond := collecting rt args (planPhases rt.rng args.toArgs) []

/-- The manifest in memory is the one on the disk. -/
def saved : Cond := fun d m ended => collected rt args d m ended ∧ d.manifest = some (.whole m)

/-- The generator yields the rows of the file that the manifest knows the hash of. -/
def loaded (g : Generator) : Cond := fun d m ended => collected rt args d m ended ∧
  m.rawSha256 = some (rt.lib.sha256 (written rt ended)) ∧
  g = observationsStream rt.lib m.toManifest (rt.lib.sha256 (written rt ended)) (written rt ended)

/-- These rows have been validated, counted and analysed. -/
structure Analysed (n : Counters) (result : Analysis) (f : Files) (m : Manifest)
    (ended : List (Phase × List Row)) (rows : List Row) : Prop where
  collected : Collecting rt args (planPhases rt.rng args.toArgs) [] f m ended
  hash : m.rawSha256 = some (rt.lib.sha256 (written rt ended))
  observed : observations rt.lib m (rt.lib.sha256 (written rt ended)) (written rt ended) = .ok rows
  validated : validatedRows (rows.map .dict) = .ok rows
  analysed : analyze rt.arith rt.order (.iterator (rows.map .dict)) = .ok result
  counted : n = ⟨rows.countP isInvalid, rows.countP isFailure⟩

abbrev analysed (n : Counters) (result : Analysis) : Cond :=
  fun d m ended => ∃ rows, Analysed rt args n result d.toFiles m.toManifest ended rows

end

section

variable {rt : Runtime} {args : Options}

theorem spec_readRaw {K : Cond} (hK : ∀ d m ended, K d m ended → collected rt args d m ended) :
    Spec rt args K (file .readRaw) fun raw d m ended => K d m ended ∧ raw = written rt ended := by
  refine spec_file fun d m ended raw d' h hsound hperform => ?_
  rw [performFile, (hK d m ended h).stored, List.append_nil] at hperform
  cases hperform
  exact ⟨hsound, h, rfl⟩

theorem spec_readManifest {K : Cond} (hK : ∀ d m ended, K d m ended → saved rt args d m ended) :
    Spec rt args K (file .readManifest) fun m₀ d m ended => K d m ended ∧ m₀ = m := by
  refine spec_file fun d m ended m₀ d' h hsound hperform => ?_
  rw [performFile, (hK d m ended h).2] at hperform
  cases hperform
  exact ⟨hsound, h, rfl⟩

theorem spec_loadStream : Spec rt args (saved rt args) (loadStream rt) (loaded rt args) := by
  refine spec_bind (spec_readManifest fun _ _ _ h => h) fun m₀ => ?_
  refine spec_bind spec_raises fun _ => ?_
  refine spec_bind (spec_readRaw fun _ _ _ h => h.1.1.1) fun raw => ?_
  refine spec_bind spec_raises fun digest => ?_
  refine spec_bind spec_raises fun _ => ?_
  refine spec_bind (spec_readRaw fun _ _ _ h => h.1.1.1.1.1.1) fun stored => ?_
  refine Solo.Triple.ret _ fun w _ hK d hd => ?_
  obtain ⟨⟨⟨⟨⟨⟨⟨hcollected, -⟩, rfl⟩, -⟩, rfl⟩, hdigest⟩, hhash⟩, rfl⟩ := hK d hd
  rw [refuse_ok, decide_eq_false_iff_not, not_not] at hhash
  cases hsha : w.manifest.rawSha256 with
  | none =>
    rw [hsha] at hdigest
    cases hdigest
  | some sha =>
    rw [hsha] at hdigest
    cases hdigest
    rw [← hhash] at hsha ⊢
    exact ⟨hcollected, hsha, rfl⟩

theorem analysed_of_loaded {g : Generator} {result : Analysis} {d : Directory} {m : Live}
    {ended : List (Phase × List Row)} (h : loaded rt args g d m ended)
    (hresult : g.counted.1.analyze rt.arith rt.order = .ok result) :
    analysed rt args g.counted.2 result d m ended := by
  obtain ⟨hcollected, hhash, rfl⟩ := h
  obtain ⟨rows, hobserved, hvalidated, hanalysed, hcounted⟩ := analyze_counted hresult
  exact ⟨rows, hcollected, hhash, hobserved, hvalidated, hanalysed, hcounted⟩

end

/-! ## The end -/

section

variable {rt : Runtime} {args : Options}

/-- A row that passes says that it is a success if it is a complete 2xx response. -/
theorem flag_success {row : Row} (h : Passes row) : flag row "success" = succeeds row := by
  have hbool := h.outcome (show ("success" : Str) ∈ OUTCOMES by decide)
  have hcontents := h.2
  simp only [checkContents, seq_ok, checkSuccess, refuse_ok, Bool.not_eq_false'] at hcontents
  have heq := hcontents.2.2.2.2.2.1
  rw [flag]
  cases hitem : item row "success" with
  | bool b =>
    rw [hitem] at heq
    exact Value.eq_bool.mp heq
  | _ =>
    rw [hitem] at hbool
    cases hbool

/-- The gate lets a study pass whose rows are valid, so far as they have to be. -/
theorem Analysed.valid {n : Counters} {result : Analysis} {f : Files} {m : Manifest}
    {ended : List (Phase × List Row)} {rows : List Row}
    (h : Analysed rt args n result f m ended rows) (hgate : failedGate args n = false) :
    ∀ row ∈ rows, succeeds row = true ∨ args.requireAllValid = true →
      flag row "valid_response" = true := by
  intro row hrow hcase
  obtain ⟨-, -, hpass, -⟩ := validatedRows_ok.mp h.validated
  rw [failedGate, h.counted, Bool.or_eq_false_iff, decide_eq_false_iff_not, Nat.not_lt,
    Nat.le_zero, List.countP_eq_zero] at hgate
  obtain ⟨hinvalid, hall⟩ := hgate
  rcases hcase with hsuccess | hrequire
  · have hrow' := hinvalid row hrow
    rw [isInvalid, flag_success (hpass row hrow), hsuccess] at hrow'
    simpa using hrow'
  · rw [hrequire, Bool.true_and, decide_eq_false_iff_not, Nat.not_lt, Nat.le_zero,
      List.countP_eq_zero] at hall
    have hrow' := hall row hrow
    rw [isFailure] at hrow'
    simpa using hrow'

/-- The loaded study, with its status changed. -/
theorem Analysed.finished {n : Counters} {result : Analysis} {f : Files} {m : Live}
    {ended : List (Phase × List Row)} {rows : List Row}
    (h : Analysed rt args n result f m.toManifest ended rows)
    (hanalysis : f.analysis = some (.whole result))
    (hstatus : m.status = finalStatus (failedGate args n)) :
    Finished rt args f ended m (written rt ended) rows result := by
  refine ⟨h.collected.plan, h.collected.phases, ?_, rfl, h.hash, ?_, h.analysed, hanalysis, ?_⟩
  · rw [h.collected.stored, List.append_nil]
  · have haccepted : m.status ∈ accepted false := by
      rw [hstatus]
      cases failedGate args n <;> decide
    exact loadStudy_ok.mpr ⟨haccepted, h.hash, h.observed, h.validated⟩
  · intro hcomplete
    refine h.valid ?_
    rw [hcomplete] at hstatus
    cases hgate : failedGate args n with
    | false => rfl
    | true =>
      rw [hgate] at hstatus
      revert hstatus
      decide

theorem Analysed.assign {n : Counters} {result : Analysis} {f : Files} {m : Manifest}
    {ended : List (Phase × List Row)} {rows : List Row}
    (h : Analysed rt args n result f m ended rows) (status : Text)
    (file : Option (File Analysis)) :
    Analysed rt args n result { f with analysis := file } { m with status := status } ended rows :=
  ⟨⟨h.collected.unfinished, h.collected.plan, h.collected.phases, h.collected.stored⟩, h.hash,
    h.observed, h.validated, h.analysed, h.counted⟩

/-- The first of the two manifests is not that of a finished study. -/
theorem spec_replaceCollected : Spec rt args
    (fun d m ended => collected rt args d m ended ∧ m.status = ("collected" : Text))
    replaceManifest fun _ => saved rt args := by
  refine spec_replaceManifest (K := fun f m ended =>
    Collecting rt args (planPhases rt.rng args.toArgs) [] f m.toManifest ended ∧
      m.status = ("collected" : Text)) (L := fun f m ended =>
    Collecting rt args (planPhases rt.rng args.toArgs) [] f m.toManifest ended ∧
      f.manifest = some (.whole m)) fun f m ended h => ?_
  have hopen : Unfinished (some (.whole m)) := by
    intro m' hm'
    cases hm'
    rw [h.2]
    decide
  exact ⟨Unfinished.sound (f := { f with manifest := _ }) hopen ended,
    ⟨hopen, h.1.plan, h.1.phases, h.1.stored⟩, rfl⟩

/-- What the second manifest says depends on the counters. -/
def decided (rt : Runtime) (args : Options) (n : Counters) (result : Analysis) (f : Files)
    (m : Live) (ended : List (Phase × List Row)) : Prop :=
  (∃ rows, Analysed rt args n result f m.toManifest ended rows) ∧
    m.status = finalStatus (failedGate args n)

/-- The second of the two manifests comes after the analysis. -/
theorem spec_replaceDecided (n : Counters) (result : Analysis) : Spec rt args
    (fun d m ended => decided rt args n result d.toFiles m ended ∧
      d.analysis = some (.whole result))
    replaceManifest fun _ _ _ _ => True := by
  refine spec_replaceManifest (K := fun f m ended => decided rt args n result f m ended ∧
    f.analysis = some (.whole result)) (L := fun _ _ _ => True) fun f m ended h => ⟨?_, trivial⟩
  obtain ⟨⟨⟨rows, hrows⟩, hstatus⟩, hanalysis⟩ := h
  intro m' hm' _
  cases hm'
  obtain ⟨hplan, hphases, hstored, hcontent, hhash, hloaded, hanalysed, _, hvalid⟩ :=
    hrows.finished hanalysis hstatus
  exact ⟨_, rows, result,
    ⟨hplan, hphases, hstored, hcontent, hhash, hloaded, hanalysed, hanalysis, hvalid⟩⟩

theorem spec_finalize :
    Spec rt args (started rt args) (finalize rt args) fun _ _ _ _ => True := by
  refine spec_bind spec_collect fun _ => ?_
  refine spec_bind (L := fun _ => collected rt args) ?_ fun raw => ?_
  · exact (spec_readRaw fun _ _ _ h => h).mono (fun _ _ _ h => h) fun _ _ _ _ h => h.1
  refine spec_bind (spec_assign (L := collected rt args) fun d m ended h => ?_) fun _ => ?_
  · exact ⟨h.unfinished, h.plan, h.phases, h.stored⟩
  refine spec_bind (spec_assign (L := fun d m ended => collected rt args d m ended ∧
    m.status = ("collected" : Text)) fun d m ended h => ?_) fun _ => ?_
  · exact ⟨⟨h.unfinished, h.plan, h.phases, h.stored⟩, rfl⟩
  refine spec_bind spec_utcNow fun now => ?_
  refine spec_bind (spec_assign (L := fun d m ended => collected rt args d m ended ∧
    m.status = ("collected" : Text)) fun d m ended h => h) fun _ => ?_
  refine spec_bind spec_replaceCollected fun _ => ?_
  refine spec_bind spec_loadStream fun g => ?_
  refine spec_bind (L := fun result => analysed rt args g.counted.2 result) ?_ fun result => ?_
  · exact spec_raises.mono (fun _ _ _ h => h) fun _ _ _ _ h => analysed_of_loaded h.1 h.2
  refine spec_bind (spec_assign (L := analysed rt args g.counted.2 result) fun _ _ _ h => h)
    fun _ => ?_
  refine spec_bind (spec_assign (L := analysed rt args g.counted.2 result) fun _ _ _ h => h)
    fun _ => ?_
  refine spec_bind (spec_assign (L := fun d => decided rt args g.counted.2 result d.toFiles)
    fun d m ended h => ?_) fun _ => ?_
  · obtain ⟨rows, hrows⟩ := h
    exact ⟨⟨rows, hrows.assign _ d.analysis⟩, rfl⟩
  refine spec_bind (spec_writeAnalysis (K := decided rt args g.counted.2 result)
    fun f m ended file h => ?_) fun _ => ?_
  · obtain ⟨⟨rows, hrows⟩, hstatus⟩ := h
    exact ⟨hrows.collected.unfinished, ⟨rows, hrows.assign m.status file⟩, hstatus⟩
  refine spec_bind (spec_replaceDecided g.counted.2 result) fun _ => ?_
  exact Solo.Triple.ret _ fun _ _ _ _ _ => trivial

/-- Whatever has happened, the manifest says that the study was aborted. -/
theorem spec_abort (e : Raised) :
    Spec rt args (fun _ _ _ => True) (abort rt e) fun _ _ _ _ => True := by
  refine spec_bind spec_utcNow fun now => ?_
  refine spec_bind (spec_assign (L := fun _ m _ => m.status = ("aborted" : Text))
    fun _ _ _ _ => rfl) fun _ => ?_
  refine spec_bind (spec_replaceManifest (K := fun _ m _ => m.status = ("aborted" : Text))
    (L := fun _ _ _ => True) fun f m ended h => ⟨?_, trivial⟩) fun _ => Solo.Triple.raise _
  intro m' hm' hstatus
  cases hm'
  rw [h] at hstatus
  exact absurd hstatus (by decide)

theorem unfinished_initial : Unfinished (some (.whole (initial rt args))) := by
  intro m hm
  cases hm
  show initialStatus args.prepareOnly ∉ accepted false
  cases args.prepareOnly <;> decide

theorem spec_mkdir : Solo.Triple (perform rt args) (Inv rt args)
    (fun w => w = World.start rt args none) (issue .mkdir) fun _ => On (started rt args) := by
  refine Solo.Triple.issue fun x w a t _ hw hperform => ?_
  subst hw
  cases hperform
  refine ⟨fun d hd m hm => ?_, fun d hd => ?_⟩
  · cases hd
    cases hm
  · cases hd
    exact ⟨fun m hm => (by cases hm), rfl, rfl⟩

theorem spec_writeInitial :
    Spec rt args (started rt args) (writeManifest .final) fun _ => started rt args := by
  refine spec_bind (L := fun _ => started rt args) (spec_file ?_) fun _ => spec_file ?_
  · rintro d m ended a d' ⟨hopen, rfl, rfl⟩ _ hperform
    cases hmanifest : d.manifest with
    | none =>
      rw [performFile, hmanifest] at hperform
      cases hperform
      have hcut : Unfinished (some .cut) := fun m hm => (by cases hm)
      exact ⟨Unfinished.sound (f := { d.toFiles with manifest := _ }) hcut [], hcut, rfl, rfl⟩
    | some file =>
      rw [performFile, hmanifest] at hperform
      cases hperform
  · rintro d m ended a d' ⟨-, rfl, rfl⟩ _ hperform
    cases hperform
    exact ⟨Unfinished.sound (f := { d.toFiles with manifest := _ }) unfinished_initial [],
      unfinished_initial, rfl, rfl⟩

theorem spec_main : Solo.Triple (perform rt args) (Inv rt args)
    (fun w => w = World.start rt args none) (main rt args) fun _ => On fun _ _ _ => True := by
  refine Solo.Triple.bind spec_mkdir fun _ => spec_bind spec_writeInitial fun _ => ?_
  split
  · exact Solo.Triple.ret _ fun _ _ _ _ _ => trivial
  · refine spec_bind (spec_catch spec_finalize spec_abort) fun _ => ?_
    exact Solo.Triple.ret _ fun _ _ _ _ _ => trivial

/-- Nothing in a directory that is there already is touched. -/
theorem spec_refused (d : Directory) : Solo.Triple (perform rt args) (fun w => w.out = some d)
    (fun w => w = World.start rt args (some d)) (main rt args) fun _ _ => True := by
  have hmkdir : Solo.Triple (perform rt args) (fun w => w.out = some d)
      (fun w => w = World.start rt args (some d)) (issue .mkdir) fun _ _ => False := by
    refine Solo.Triple.issue fun x w a t _ hw hperform => ?_
    subst hw
    cases hperform
  exact Solo.Triple.bind hmkdir fun _ _ _ hfalse => hfalse.elim

/-! ## Interrupted studies -/

/-- A study that is interrupted does not look finished.  Wherever a run is stopped, be it in
the middle of a write, a manifest that says that the study is finished is that of a study
that is: all the planned phases have been collected, the manifest has the hash of the raw
file, the whole of it has been validated and analysed, the analysis is on the disk, and a
study that is complete has passed its gate.  A directory that is there already stays as it
is. -/
theorem interrupted_not_finished (out : Option Directory) {w : World}
    (h : Solo.Reaches (perform rt args) (main rt args) (World.start rt args out) w) :
    (∀ d, out = some d → w.out = some d) ∧
    (out = none → ∀ d m, w.out = some d → d.manifest = some (.whole m) →
      m.status = ("complete" : Text) ∨ m.status = ("invalid_responses" : Text) →
      ∃ raw rows result, Finished rt args d.toFiles w.ended m raw rows result) := by
  constructor
  · rintro d rfl
    exact (spec_refused d).sound rfl rfl h
  · rintro rfl d m hd hm hstatus
    have hstart : Inv rt args (World.start rt args none) := fun d hd => (by cases hd)
    refine spec_main.sound hstart rfl h d hd m hm ?_
    simpa [accepted] using hstatus

end

/-! ## The setting of the tests -/

noncomputable def mockRuntime : Runtime where
  rng := mockShuffle
  lib :=
    { loads := fun b =>
        match (utf8Decode b).bind (readRow mockNumbers) with
        | some v => .ok v
        | none => .error (.valueError "Expecting value")
      sha256 := mockDecoders.sha256 }
  decoders := mockDecoders
  numbers := mockNumbers
  arith := mockArithmetic
  order := ⟨id, List.Perm.refl⟩
  className _ := "ValueError"

theorem mockRuntime_sound : mockRuntime.Sound where
  decoders := mockDecoders_sound
  numbers := mockNumbers_faithful
  loads t v h := by
    have hdecoded : (utf8Decode (utf8 t)).bind (readRow mockNumbers) = some v := by
      rw [utf8Decode_utf8]
      exact h
    simp only [mockRuntime, hdecoded]

def mockOptions : Options where
  toArgs := mockArgs
  prepareOnly := false
  requireAllValid := false

/-- Every request is answered by a response that is no success. -/
def mockResults (p : Phase) : List (Nat × Observed) :=
  (List.range' 1 p.count).map fun id => (id, mockClock, mockOutcome 503)

theorem mockResults_answered : Answered mockRuntime mockOptions mockResults where
  once p _ := by
    rw [mockResults, List.map_map]
    exact List.Perm.of_eq (List.map_id _)
  known p _ r hr := by
    obtain ⟨id, -, rfl⟩ := List.mem_map.mp hr
    exact .inr (show 100 ≤ 503 ∧ 503 ≤ 599 by decide)

theorem interrupted_not_finished_mock : ∃ w d m,
    Solo.Reaches (perform mockRuntime mockOptions) (main mockRuntime mockOptions)
      (World.start mockRuntime mockOptions none) w ∧
    w.out = some d ∧ d.manifest = some (.whole m) ∧
    ∃ raw rows result, Finished mockRuntime mockOptions d.toFiles w.ended m raw rows result := by
  obtain ⟨code, w, d, m, hmain, hout, hmanifest, failed, hstatus⟩ :=
    uninterrupted_finishes mockRuntime_sound mockArgs_valid (by decide) rfl mockResults_answered
      "2026-10-18T00:00:00+00:00"
  refine ⟨w, d, m, hmain.reaches, hout, hmanifest,
    (interrupted_not_finished none hmain.reaches).2 rfl d m hout hmanifest ?_⟩
  rw [hstatus]
  cases failed with
  | false => exact .inl rfl
  | true => exact .inr rfl

end RunStudy
end Study
end AdaptiveGateway
