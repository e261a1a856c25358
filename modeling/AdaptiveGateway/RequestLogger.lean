/-
The request log writer.

`Writer` is a `RequestLogWriter` together with where its run loop and the `stop()`
under way stand between two of their awaits.  Code between two awaits runs
without anything in between, so a step of the model is at most that much: an
`enqueue` call, the run loop up to its next await, or `stop()` up to its next.
`start()` and `stop()` are called by the lifespan of the application, which awaits
one call before it makes the next.

A row is the record of an `enqueue` call with the number of that call, so that
two rows of one list are the same row exactly when their numbers are.  Every step
moves rows between the places where a row can be, and `step_moves` says which;
the accounting follows from that one lemma.
-/
import AdaptiveGateway.Exc
import Mathlib.Algebra.Order.Group.Multiset
import Mathlib.Tactic.Abel

namespace AdaptiveGateway
namespace RequestLogger

/-! ## The writer -/

/-- What `__init__` is given; the length of the flush interval decides nothing but when a
timeout comes. -/
structure Settings where
  maxsize : Int := 10000
  batchSize : Int := 100

abbrev Row (ρ : Type) := Nat × ρ

/-- Where `run` stands. -/
inductive Run (ρ : Type) where
  /-- Before the test of `while not self._stop.is_set()`. -/
  | head
  /-- In the `wait_for` of `_collect_batch`, which runs `get` as a task of its own. -/
  | getting
  /-- The same, after `get` has taken a row from the queue. -/
  | got (first : Row ρ)
  /-- In the `_flush` of a batch. -/
  | flushing (batch : List (Row ρ))
  | finished
deriving DecidableEq

/-- Where `stop` stands: in its `gather`, or in the `_flush` of `_drain_remaining`. -/
inductive Stop (ρ : Type) where
  | joining
  | flushing (rows : List (Row ρ))
deriving DecidableEq

structure Writer (ρ : Type) where
  queue : List (Row ρ) := []
  /-- Whether the event `_stop` is set. -/
  stop : Bool := false
  task : Option (Run ρ) := none
  stopping : Option (Stop ρ) := none
  /-- The rows of the table, in the order of their commits. -/
  inserted : List (Row ρ) := []
  /-- `gateway_request_log_dropped_total`. -/
  dropped : Nat := 0
  /-- How often `enqueue` was called. -/
  calls : Nat := 0
  /-- How often it had been called when `stop` was last called. -/
  callsAtStop : Nat := 0
  /-- How many calls of `stop` have returned. -/
  stopsReturned : Nat := 0
deriving DecidableEq

inductive Event (ρ : Type) where
  | enqueue (record : ρ)
  | start
  | stop
  /-- `run` goes on, from its test or with the row that `wait_for` returns. -/
  | resume
  /-- `get` takes a row. -/
  | get
  /-- `wait_for` raises `TimeoutError`. -/
  | timeout
  /-- The `_flush` of the run loop ends, with a commit or with an exception. -/
  | flushed (committed : Bool)
  /-- The `gather` of `stop` returns. -/
  | joined
  /-- The `_flush` of `_drain_remaining` ends. -/
  | drained (committed : Bool)

variable {ρ : Type}

/-- `asyncio.Queue.full`. -/
def full (cfg : Settings) (queue : List (Row ρ)) : Bool :=
  decide (0 < cfg.maxsize) && decide (cfg.maxsize ≤ queue.length)

/-- The loop of `_collect_batch`: the batch, and what it leaves in the queue. -/
def fill (cfg : Settings) : List (Row ρ) → List (Row ρ) → List (Row ρ) × List (Row ρ)
  | batch, [] => (batch, [])
  | batch, row :: queue =>
    if batch.length < cfg.batchSize then fill cfg (batch ++ [row]) queue
    else (batch, row :: queue)

namespace Writer

/-- `enqueue`. -/
def enqueue (cfg : Settings) (record : ρ) (w : Writer ρ) : Writer ρ :=
  if full cfg w.queue then { w with dropped := w.dropped + 1, calls := w.calls + 1 }
  else { w with queue := w.queue ++ [(w.calls, record)], calls := w.calls + 1 }

/-- `start`. -/
def start (w : Writer ρ) : Writer ρ :=
  match w.task with
  | none => { w with stop := false, task := some .head }
  | some _ => w

/-- What `_flush` does, as the commit goes through or something raises. -/
def flush (records : List (Row ρ)) (committed : Bool) (w : Writer ρ) : Writer ρ :=
  if committed then { w with inserted := w.inserted ++ records }
  else { w with dropped := w.dropped + records.length }

/-- `run` from its test up to the await of `_collect_batch`, and from there up to `_flush`. -/
def resume (cfg : Settings) (w : Writer ρ) : Writer ρ :=
  match w.task with
  | some .head => { w with task := some (if w.stop then .finished else .getting) }
  | some (.got first) =>
    let filled := fill cfg [first] w.queue
    { w with queue := filled.2, task := some (.flushing filled.1) }
  | _ => w

/-- `get`, which waits as long as the queue is empty. -/
def get (w : Writer ρ) : Writer ρ :=
  match w.task, w.queue with
  | some .getting, first :: queue => { w with queue := queue, task := some (.got first) }
  | _, _ => w

/-- `stop` returns. -/
def returned (w : Writer ρ) : Writer ρ :=
  { w with stopping := none, stopsReturned := w.stopsReturned + 1 }

/-- `_drain_remaining`, up to its `_flush` if it has one. -/
def drainRemaining (w : Writer ρ) : Writer ρ :=
  match w.queue with
  | [] => w.returned
  | rows => { w with queue := [], stopping := some (.flushing rows) }

/-- `stop`, up to its first await. -/
def beginStop (w : Writer ρ) : Writer ρ :=
  let w := { w with stop := true, callsAtStop := w.calls }
  match w.task with
  | none => w.drainRemaining
  | some _ => { w with stopping := some .joining }

/-- `wait_for` gives up, and `run` finds an empty batch. -/
def timeout (w : Writer ρ) : Writer ρ :=
  match w.task with
  | some .getting => { w with task := some .head }
  | _ => w

/-- The `_flush` of `run` ends. -/
def flushed (committed : Bool) (w : Writer ρ) : Writer ρ :=
  match w.task with
  | some (.flushing batch) => { w with task := some .head }.flush batch committed
  | _ => w

/-- The `gather` of `stop` ends, once the task has. -/
def joined (w : Writer ρ) : Writer ρ :=
  match w.stopping, w.task with
  | some .joining, some .finished => { w with task := none }.drainRemaining
  | _, _ => w

/-- The `_flush` of `_drain_remaining` ends. -/
def drained (committed : Bool) (w : Writer ρ) : Writer ρ :=
  match w.stopping with
  | some (.flushing rows) => w.returned.flush rows committed
  | _ => w

/-- A step; an event that cannot come now changes nothing. -/
def step (cfg : Settings) (w : Writer ρ) : Event ρ → Writer ρ
  | .enqueue record => w.enqueue cfg record
  | .start => if w.stopping.isNone then w.start else w
  | .stop => if w.stopping.isNone then w.beginStop else w
  | .resume => w.resume cfg
  | .get => w.get
  | .timeout => w.timeout
  | .flushed committed => w.flushed committed
  | .joined => w.joined
  | .drained committed => w.drained committed

def run (cfg : Settings) (events : List (Event ρ)) : Writer ρ :=
  events.foldl (step cfg) {}

/-- The rows that the run loop has in hand. -/
def taskRows : Option (Run ρ) → List (Row ρ)
  | some (.got first) => [first]
  | some (.flushing batch) => batch
  | _ => []

/-- The rows that `stop` has in hand. -/
def stopRows : Option (Stop ρ) → List (Row ρ)
  | some (.flushing rows) => rows
  | _ => []

/-- The rows in the batch that the writer holds. -/
def held (w : Writer ρ) : List (Row ρ) :=
  taskRows w.task ++ stopRows w.stopping

/-- The rows that are somewhere and not dropped. -/
def rows (w : Writer ρ) : Multiset (Row ρ) :=
  w.inserted + (taskRows w.task + stopRows w.stopping) + w.queue

end Writer

/-! ## What a step moves -/

section Moves

variable {cfg : Settings} {w : Writer ρ}

theorem fill_append (cfg : Settings) (batch queue : List (Row ρ)) :
    (fill cfg batch queue).1 ++ (fill cfg batch queue).2 = batch ++ queue := by
  induction queue generalizing batch with
  | nil => rfl
  | cons row queue ih =>
    unfold fill
    split
    next => rw [ih, List.append_assoc, List.singleton_append]
    next => rfl

/-- From `w` to `w'` the rows `new` come in and the rows `lost` are dropped, and the rest
only changes places. -/
structure Moves (w w' : Writer ρ) (new lost : List (Row ρ)) : Prop where
  rows : new + w.rows = lost + w'.rows
  calls : w'.calls = w.calls + new.length
  dropped : w'.dropped = w.dropped + lost.length
  /-- What comes in is one row at most, with the number of its call. -/
  numbers : ∀ row ∈ new, row.1 = w.calls
  single : new.length ≤ 1

/-- Nothing comes in and nothing is dropped. -/
theorem Moves.of_rows {w' : Writer ρ} (h : w'.rows = w.rows) (hcalls : w'.calls = w.calls)
    (hdropped : w'.dropped = w.dropped) : Moves w w' [] [] where
  rows := by rw [h]
  calls := hcalls
  dropped := hdropped
  numbers := by simp
  single := Nat.zero_le 1

theorem Moves.refl (w : Writer ρ) : Moves w w [] [] :=
  Moves.of_rows rfl rfl rfl

theorem enqueue_moves (cfg : Settings) (record : ρ) (w : Writer ρ) :
    ∃ lost, Moves w (w.enqueue cfg record) [(w.calls, record)] lost := by
  unfold Writer.enqueue
  split
  next => exact ⟨[(w.calls, record)], ⟨rfl, rfl, rfl, by simp, Nat.le_refl 1⟩⟩
  next =>
    refine ⟨[], ⟨?_, rfl, rfl, by simp, Nat.le_refl 1⟩⟩
    simp only [Writer.rows, ← Multiset.coe_add, Multiset.coe_nil, zero_add]
    abel

theorem start_moves (w : Writer ρ) : Moves w w.start [] [] := by
  unfold Writer.start
  split
  next h => exact Moves.of_rows (by simp only [Writer.rows, h, Writer.taskRows]) rfl rfl
  next => exact Moves.refl w

theorem resume_moves (cfg : Settings) (w : Writer ρ) : Moves w (w.resume cfg) [] [] := by
  unfold Writer.resume
  split
  next h =>
    refine Moves.of_rows ?_ rfl rfl
    simp only [Writer.rows, h]
    split <;> rfl
  next first h =>
    refine Moves.of_rows ?_ rfl rfl
    have hfill : ((fill cfg [first] w.queue).1 : Multiset (Row ρ)) + (fill cfg [first] w.queue).2 =
        [first] + w.queue := by
      rw [Multiset.coe_add, fill_append, Multiset.coe_add]
    simp only [Writer.rows, h, Writer.taskRows]
    calc _ = (w.inserted : Multiset (Row ρ)) + Writer.stopRows w.stopping +
            ((fill cfg [first] w.queue).1 + (fill cfg [first] w.queue).2) := by abel
      _ = _ := by rw [hfill]; abel
  next => exact Moves.refl w

theorem get_moves (w : Writer ρ) : Moves w w.get [] [] := by
  unfold Writer.get
  split
  next first queue htask hqueue =>
    refine Moves.of_rows ?_ rfl rfl
    have hcons : (w.queue : Multiset (Row ρ)) = [first] + queue := by
      rw [hqueue, Multiset.coe_add, List.singleton_append]
    simp only [Writer.rows, hcons, htask, Writer.taskRows, Multiset.coe_nil]
    abel
  next => exact Moves.refl w

theorem returned_rows {w : Writer ρ} (h : Writer.stopRows w.stopping = []) :
    w.returned.rows = w.rows := by
  simp only [Writer.rows, Writer.returned, h]
  rfl

theorem drainRemaining_moves {w : Writer ρ} (h : Writer.stopRows w.stopping = []) :
    Moves w w.drainRemaining [] [] := by
  unfold Writer.drainRemaining
  split
  next => exact Moves.of_rows (returned_rows h) rfl rfl
  next =>
    refine Moves.of_rows ?_ rfl rfl
    simp only [Writer.rows, h]
    simp only [Writer.stopRows, Multiset.coe_nil]
    abel

theorem beginStop_moves {w : Writer ρ} (h : w.stopping = none) :
    Moves w w.beginStop [] [] := by
  have hrows : Writer.stopRows w.stopping = [] := by rw [h]; rfl
  unfold Writer.beginStop
  dsimp only
  split
  next =>
    have hdrain := drainRemaining_moves (w := { w with stop := true, callsAtStop := w.calls }) hrows
    exact ⟨hdrain.rows, hdrain.calls, hdrain.dropped, by simp, Nat.zero_le 1⟩
  next =>
    refine Moves.of_rows ?_ rfl rfl
    simp only [Writer.rows, hrows]
    rfl

/-- A flush hands its records over to the table or drops them; `w'` is the writer that has
them in hand no more. -/
theorem flush_moves {w : Writer ρ} (w' : Writer ρ) {records : List (Row ρ)} (committed : Bool)
    (hrows : w.rows = records + w'.rows) (hcalls : w'.calls = w.calls)
    (hdropped : w'.dropped = w.dropped) :
    ∃ lost, Moves w (w'.flush records committed) [] lost := by
  cases committed with
  | true =>
    refine ⟨[], Moves.of_rows ?_ hcalls hdropped⟩
    rw [hrows]
    simp only [Writer.rows, Writer.flush, if_true, ← Multiset.coe_add]
    abel
  | false =>
    refine ⟨records, ⟨?_, hcalls, ?_, by simp, Nat.zero_le 1⟩⟩
    · rw [hrows, Multiset.coe_nil, zero_add]
      rfl
    · show w'.dropped + records.length = _
      rw [hdropped]

theorem timeout_moves (w : Writer ρ) : Moves w w.timeout [] [] := by
  unfold Writer.timeout
  split
  next h => exact Moves.of_rows (by simp only [Writer.rows, h, Writer.taskRows]) rfl rfl
  next => exact Moves.refl w

theorem flushed_moves (committed : Bool) (w : Writer ρ) :
    ∃ lost, Moves w (w.flushed committed) [] lost := by
  unfold Writer.flushed
  split
  next batch h =>
    refine flush_moves { w with task := some .head } committed ?_ rfl rfl
    simp only [Writer.rows, h, Writer.taskRows, Multiset.coe_nil]
    abel
  next => exact ⟨[], Moves.refl w⟩

theorem joined_moves (w : Writer ρ) : Moves w w.joined [] [] := by
  unfold Writer.joined
  split
  next hstop htask =>
    have hdrain := drainRemaining_moves (w := { w with task := none })
      (by simp only [hstop, Writer.stopRows])
    have hrows : { w with task := none }.rows = w.rows := by
      simp only [Writer.rows, htask, Writer.taskRows]
    exact ⟨hrows ▸ hdrain.rows, hdrain.calls, hdrain.dropped, by simp, Nat.zero_le 1⟩
  next => exact Moves.refl w

theorem drained_moves (committed : Bool) (w : Writer ρ) :
    ∃ lost, Moves w (w.drained committed) [] lost := by
  unfold Writer.drained
  split
  next rows h =>
    refine flush_moves w.returned committed ?_ rfl rfl
    simp only [Writer.rows, Writer.returned, h, Writer.stopRows, Multiset.coe_nil]
    abel
  next => exact ⟨[], Moves.refl w⟩

theorem step_moves (cfg : Settings) (w : Writer ρ) (e : Event ρ) :
    ∃ new lost, Moves w (w.step cfg e) new lost := by
  cases e with
  | enqueue record => exact ⟨_, enqueue_moves cfg record w⟩
  | start =>
    by_cases h : w.stopping.isNone
    · exact ⟨[], [], by simpa only [Writer.step, if_pos h] using start_moves w⟩
    · exact ⟨[], [], by simpa only [Writer.step, if_neg h] using Moves.refl w⟩
  | stop =>
    by_cases h : w.stopping.isNone
    · have hstop := beginStop_moves (Option.isNone_iff_eq_none.mp h)
      exact ⟨[], [], by simpa only [Writer.step, if_pos h] using hstop⟩
    · exact ⟨[], [], by simpa only [Writer.step, if_neg h] using Moves.refl w⟩
  | resume => exact ⟨[], [], resume_moves cfg w⟩
  | get => exact ⟨[], [], get_moves w⟩
  | timeout => exact ⟨[], [], timeout_moves w⟩
  | flushed committed => exact ⟨[], flushed_moves committed w⟩
  | joined => exact ⟨[], [], joined_moves w⟩
  | drained committed => exact ⟨[], drained_moves committed w⟩

end Moves

/-! ## Every run -/

section Accounts

variable {cfg : Settings} {w w' : Writer ρ}

/-- Every call of `enqueue` is accounted for, and no two rows are of one call. -/
structure Accounts (w : Writer ρ) : Prop where
  calls : w.calls = w.rows.card + w.dropped
  nodup : (w.rows.map Prod.fst).Nodup
  lt : ∀ row ∈ w.rows, row.1 < w.calls

theorem Moves.accounts {new lost : List (Row ρ)} (h : Moves w w' new lost) (hw : Accounts w) :
    Accounts w' := by
  have hmem : ∀ row ∈ w'.rows, row ∈ new ∨ row ∈ w.rows := by
    intro row hrow
    have : row ∈ new + w.rows := by
      rw [h.rows]
      exact Multiset.mem_add.mpr (.inr hrow)
    simpa using this
  refine ⟨?_, ?_, ?_⟩
  · have hcard := congrArg Multiset.card h.rows
    simp only [Multiset.card_add, Multiset.coe_card] at hcard
    have := hw.calls
    have := h.calls
    have := h.dropped
    omega
  · -- the new row is apart from the others, whose numbers are those of earlier calls
    have hnew : ((new : Multiset (Row ρ)).map Prod.fst).Nodup := by
      rw [Multiset.map_coe, Multiset.coe_nodup]
      match new, h.single with
      | [], _ => exact List.nodup_nil
      | [row], _ => exact List.nodup_singleton _
    have hall : ((new + w.rows).map Prod.fst).Nodup := by
      rw [Multiset.map_add, Multiset.nodup_add]
      refine ⟨hnew, hw.nodup, Multiset.disjoint_left.mpr ?_⟩
      intro n hn hn'
      obtain ⟨row, hrow, rfl⟩ := Multiset.mem_map.mp hn
      obtain ⟨old, hold, heq⟩ := Multiset.mem_map.mp hn'
      have := h.numbers row (by simpa using hrow)
      have := hw.lt old hold
      omega
    rw [h.rows, Multiset.map_add] at hall
    exact (Multiset.nodup_add.mp hall).2.1
  · intro row hrow
    have hcalls := h.calls
    rcases hmem row hrow with hnew | hold
    · have := h.numbers row hnew
      have := List.length_pos_of_mem hnew
      omega
    · have := hw.lt row hold
      omega

/-- While `stop` flushes, the task is gone, and what is in the queue came in after the call. -/
structure Draining (w : Writer ρ) : Prop where
  task : ∀ rows, w.stopping = some (.flushing rows) → w.task = none
  queue : ∀ rows, w.stopping = some (.flushing rows) → w.queue ≠ [] → w.callsAtStop < w.calls
  since : w.stopping ≠ none → w.callsAtStop ≤ w.calls

/-- A step of the run loop, which does nothing without a task and leaves `stop` alone. -/
structure Loops (w w' : Writer ρ) : Prop where
  idle : w.task = none → w' = w
  stopping : w'.stopping = w.stopping
  calls : w'.calls = w.calls
  callsAtStop : w'.callsAtStop = w.callsAtStop
  stopsReturned : w'.stopsReturned = w.stopsReturned

theorem Loops.refl (w : Writer ρ) : Loops w w := ⟨fun _ => rfl, rfl, rfl, rfl, rfl⟩

theorem Loops.of_task {r : Run ρ} (htask : w.task = some r) (hstopping : w'.stopping = w.stopping)
    (hcalls : w'.calls = w.calls) (hat : w'.callsAtStop = w.callsAtStop)
    (hreturned : w'.stopsReturned = w.stopsReturned) : Loops w w' :=
  ⟨fun h => absurd (htask.symm.trans h) (by simp), hstopping, hcalls, hat, hreturned⟩

theorem resume_loops (cfg : Settings) (w : Writer ρ) : Loops w (w.resume cfg) := by
  unfold Writer.resume
  split
  next h => exact Loops.of_task h rfl rfl rfl rfl
  next h => exact Loops.of_task h rfl rfl rfl rfl
  next => exact Loops.refl w

theorem get_loops (w : Writer ρ) : Loops w w.get := by
  unfold Writer.get
  split
  next h _ => exact Loops.of_task h rfl rfl rfl rfl
  next => exact Loops.refl w

theorem timeout_loops (w : Writer ρ) : Loops w w.timeout := by
  unfold Writer.timeout
  split
  next h => exact Loops.of_task h rfl rfl rfl rfl
  next => exact Loops.refl w

theorem flushed_loops (committed : Bool) (w : Writer ρ) : Loops w (w.flushed committed) := by
  unfold Writer.flushed
  split
  next h => cases committed <;> exact Loops.of_task h rfl rfl rfl rfl
  next => exact Loops.refl w

theorem Loops.draining (h : Loops w w') (hw : Draining w) : Draining w' := by
  have hsame : ∀ rows, w'.stopping = some (.flushing rows) → w' = w := fun rows hrows =>
    h.idle (hw.task rows (h.stopping ▸ hrows))
  refine ⟨fun rows hrows => ?_, fun rows hrows => ?_, fun hstopping => ?_⟩
  · rw [hsame rows hrows]
    exact hw.task rows (h.stopping ▸ hrows)
  · rw [hsame rows hrows]
    exact hw.queue rows (h.stopping ▸ hrows)
  · rw [h.calls, h.callsAtStop]
    exact hw.since (h.stopping ▸ hstopping)

/-- Without a `stop` under way there is nothing to say. -/
theorem Draining.of_none (h : w.stopping = none) : Draining w :=
  ⟨by simp [h], by simp [h], fun hne => absurd h hne⟩

theorem drainRemaining_draining (htask : w.task = none) (h : w.callsAtStop ≤ w.calls) :
    Draining w.drainRemaining := by
  unfold Writer.drainRemaining
  split
  next => exact Draining.of_none rfl
  next => exact ⟨fun _ _ => htask, fun _ _ hne => absurd rfl hne, fun _ => h⟩

theorem enqueue_draining (cfg : Settings) (record : ρ) (hw : Draining w) :
    Draining (w.enqueue cfg record) := by
  unfold Writer.enqueue
  split
  next =>
    refine ⟨hw.task, fun rows hrows hne => ?_, fun hstopping => ?_⟩
    · exact Nat.lt_succ_of_lt (hw.queue rows hrows hne)
    · exact Nat.le_succ_of_le (hw.since hstopping)
  next =>
    refine ⟨hw.task, fun rows hrows _ => ?_, fun hstopping => ?_⟩
    · exact Nat.lt_succ_of_le (hw.since (by rw [show w.stopping = _ from hrows]; simp))
    · exact Nat.le_succ_of_le (hw.since hstopping)

theorem start_stopping : w.start.stopping = w.stopping := by
  unfold Writer.start
  split <;> rfl

theorem beginStop_draining (w : Writer ρ) : Draining w.beginStop := by
  unfold Writer.beginStop
  dsimp only
  split
  next htask => exact drainRemaining_draining htask (Nat.le_refl _)
  next => exact ⟨by simp, by simp, fun _ => Nat.le_refl _⟩

theorem step_draining (cfg : Settings) (hw : Draining w) (e : Event ρ) :
    Draining (w.step cfg e) := by
  cases e with
  | enqueue record => exact enqueue_draining cfg record hw
  | start =>
    show Draining (if w.stopping.isNone then w.start else w)
    split
    next h => exact Draining.of_none (start_stopping.trans (Option.isNone_iff_eq_none.mp h))
    next => exact hw
  | stop =>
    show Draining (if w.stopping.isNone then w.beginStop else w)
    split
    next => exact beginStop_draining w
    next => exact hw
  | resume => exact (resume_loops cfg w).draining hw
  | get => exact (get_loops w).draining hw
  | timeout => exact (timeout_loops w).draining hw
  | flushed committed => exact (flushed_loops committed w).draining hw
  | joined =>
    show Draining w.joined
    unfold Writer.joined
    split
    next hstop _ => exact drainRemaining_draining rfl (hw.since (by rw [hstop]; simp))
    next => exact hw
  | drained committed =>
    show Draining (w.drained committed)
    unfold Writer.drained
    split
    next => cases committed <;> exact Draining.of_none rfl
    next => exact hw

theorem run_append (cfg : Settings) (events : List (Event ρ)) (e : Event ρ) :
    Writer.run cfg (events ++ [e]) = (Writer.run cfg events).step cfg e := by
  rw [Writer.run, List.foldl_append]
  rfl

theorem run_accounts (cfg : Settings) (events : List (Event ρ)) :
    Accounts (Writer.run cfg events) := by
  induction events using List.reverseRecOn with
  | nil =>
    exact ⟨rfl, Multiset.nodup_zero,
      by simp [Writer.run, Writer.rows, Writer.taskRows, Writer.stopRows]⟩
  | append_singleton events e ih =>
    rw [run_append]
    obtain ⟨new, lost, hmoves⟩ := step_moves cfg (Writer.run cfg events) e
    exact hmoves.accounts ih

theorem run_draining (cfg : Settings) (events : List (Event ρ)) :
    Draining (Writer.run cfg events) := by
  induction events using List.reverseRecOn with
  | nil => exact Draining.of_none rfl
  | append_singleton events e ih =>
    rw [run_append]
    exact step_draining cfg ih e

/-- A `stop` that returns without a flush leaves nothing. -/
theorem drainRemaining_empty (htask : w.task = none)
    (h : w.drainRemaining.stopsReturned ≠ w.stopsReturned) :
    w.drainRemaining.queue = [] ∧ w.drainRemaining.held = [] := by
  unfold Writer.drainRemaining at h ⊢
  split
  next hqueue =>
    refine ⟨hqueue, ?_⟩
    show Writer.taskRows w.task ++ [] = []
    rw [htask]
    rfl
  next => simp only [ne_eq, not_true] at h

theorem beginStop_empty (h : w.beginStop.stopsReturned ≠ w.stopsReturned) :
    w.beginStop.queue = [] ∧ w.beginStop.held = [] := by
  unfold Writer.beginStop at h ⊢
  cases htask : w.task with
  | none =>
    simp only [htask] at h ⊢
    exact drainRemaining_empty rfl h
  | some r => simp [htask] at h

theorem joined_empty (h : w.joined.stopsReturned ≠ w.stopsReturned) :
    w.joined.queue = [] ∧ w.joined.held = [] := by
  unfold Writer.joined at h ⊢
  split
  next hstop htask =>
    simp only [hstop, htask] at h
    exact drainRemaining_empty rfl h
  next hne =>
    refine absurd ?_ h
    split
    next hstop htask => exact absurd htask (hne hstop)
    next => rfl

theorem drained_empty (hw : Draining w) (committed : Bool)
    (h : (w.drained committed).stopsReturned ≠ w.stopsReturned)
    (hcalls : (w.drained committed).calls = (w.drained committed).callsAtStop) :
    (w.drained committed).queue = [] ∧ (w.drained committed).held = [] := by
  unfold Writer.drained at h hcalls ⊢
  cases hstop : w.stopping with
  | none => simp [hstop] at h
  | some stop =>
    cases stop with
    | joining => simp [hstop] at h
    | flushing rows =>
      simp only [hstop] at hcalls ⊢
      have hheld : w.returned.held = [] := by
        show Writer.taskRows w.task ++ [] = []
        rw [hw.task rows hstop]
        rfl
      have hqueue : w.queue = [] := by
        by_contra hne
        have hlt := hw.queue rows hstop hne
        cases committed
        · exact absurd hcalls (Nat.ne_of_gt hlt)
        · exact absurd hcalls (Nat.ne_of_gt hlt)
      cases committed
      · exact ⟨hqueue, hheld⟩
      · exact ⟨hqueue, hheld⟩

/-- A step in which a call of `stop` returns leaves nothing, if `enqueue` was not called
since. -/
theorem step_empty (cfg : Settings) (hw : Draining w) (e : Event ρ)
    (h : (w.step cfg e).stopsReturned ≠ w.stopsReturned)
    (hcalls : (w.step cfg e).calls = (w.step cfg e).callsAtStop) :
    (w.step cfg e).queue = [] ∧ (w.step cfg e).held = [] := by
  cases e with
  | enqueue record =>
    refine absurd ?_ h
    show (w.enqueue cfg record).stopsReturned = _
    unfold Writer.enqueue
    split <;> rfl
  | start =>
    refine absurd ?_ h
    show (if w.stopping.isNone then w.start else w).stopsReturned = _
    unfold Writer.start
    split
    · split <;> rfl
    · rfl
  | stop =>
    by_cases hnone : w.stopping.isNone
    · simp only [Writer.step, if_pos hnone] at h ⊢
      exact beginStop_empty h
    · simp only [Writer.step, if_neg hnone, ne_eq, not_true] at h
  | resume => exact absurd (resume_loops cfg w).stopsReturned h
  | get => exact absurd (get_loops w).stopsReturned h
  | timeout => exact absurd (timeout_loops w).stopsReturned h
  | flushed committed => exact absurd (flushed_loops committed w).stopsReturned h
  | joined => exact joined_empty h
  | drained committed => exact drained_empty hw committed h hcalls

end Accounts

/-! ## Conservation -/

/-- In every run, every call of `enqueue` is a row of the table, a row counted as dropped, a
row of the queue or a row in the writer's hands; no row is in the table twice; and a call
of `stop` that returns leaves the queue and the writer's hands empty, unless `enqueue`
was called after it. -/
theorem log_rows_conserved (cfg : Settings) (events : List (Event ρ)) :
    let w := Writer.run cfg events
    w.calls = w.inserted.length + w.dropped + w.queue.length + w.held.length ∧
    (w.inserted.map Prod.fst).Nodup ∧
    ∀ e, (w.step cfg e).stopsReturned ≠ w.stopsReturned →
      (w.step cfg e).calls = (w.step cfg e).callsAtStop →
      (w.step cfg e).queue = [] ∧ (w.step cfg e).held = [] := by
  have haccounts := run_accounts cfg events
  refine ⟨?_, ?_, fun e => step_empty cfg (run_draining cfg events) e⟩
  · have hcalls := haccounts.calls
    simp only [Writer.rows, Multiset.card_add, Multiset.coe_card] at hcalls
    simp only [Writer.held, List.length_append]
    omega
  · have hnodup := haccounts.nodup
    simp only [Writer.rows, Multiset.map_add, Multiset.nodup_add, Multiset.map_coe,
      Multiset.coe_nodup] at hnodup
    exact hnodup.1.1

/-- A writer with room for two is started, drops the third of three rows, loses a batch of
one to a failing commit and flushes the other row in `stop`. -/
theorem log_rows_conserved_stop :
    let cfg : Settings := { maxsize := 2, batchSize := 1 }
    let events : List (Event Unit) := [.enqueue (), .enqueue (), .enqueue (), .start, .resume,
      .get, .resume, .stop, .flushed false, .resume, .joined]
    let w := Writer.run cfg events
    w.dropped = 2 ∧ w.queue = [] ∧ w.held = [(1, ())] ∧
    (w.step cfg (.drained true)).inserted = [(1, ())] ∧
    (w.step cfg (.drained true)).held = [] :=
  ⟨by decide, by decide, by decide, by decide,
    ((log_rows_conserved _ _).2.2 (.drained true) (by decide) (by decide)).2⟩

end RequestLogger
end AdaptiveGateway
