/-
The boundary in front of the application.

`BodyLimitMiddleware` checks the target of a request, reads its whole body within
limits, and only then starts the application, which is given the body as one message.
The server delivers a body in messages of any size, any number of them may be empty,
and the client may go away or fall silent between two.  So the middleware is a process
around a process: `bodyLimit P` reads and writes the messages of the server, and `P`
is whatever application stands behind it.

`limited_runs` explains every history of the two by one of the application alone.
-/
import AdaptiveGateway.Concurrent.Process
import AdaptiveGateway.Proxy.Escape

namespace AdaptiveGateway
namespace BodyLimit

open Codec Concurrent Process
open Proxy hiding received

/-! ## Messages -/

/-- What the server delivers; keys that are missing are read as their defaults. -/
inductive Message where
  | request (body : Bytes) (moreBody : Bool)
  | disconnect
deriving DecidableEq

inductive Sent where
  | start (status : Nat) (headers : List (Text × Text))
  | body (content : Bytes)
deriving DecidableEq

abbrev History := List (Event Message Sent)

structure Scope where
  type : Text := "http"
  path : Text
  headers : List (Bytes × Bytes)

/-- The two messages of `JSONResponse({"detail": text}, status_code=status)`. -/
def refusal (status : Nat) (text : Text) : List Sent :=
  match detail text status Dict.empty with
  | .ok r => [.start r.status r.rawHeaders, .body r.content]
  | .error _ => []

def badTarget : List Sent := refusal 400 "invalid request target or host"

def tooLarge : List Sent := refusal 413 "request body too large"

def timedOut : List Sent := refusal 408 "request body timeout"

/-! ## The middleware -/

def validHost (cfg : Config) (headers : List (Bytes × Bytes)) : Bool :=
  match headers.filter fun e => Incoming.lowerBytes e.1 == utf8 "host" with
  | [e] =>
    let host := latin1 e.2
    match Url.urlsplit cfg.netlocOk ('/' :: '/' :: host) with
    | none => false
    | some parsed =>
      let hostPort := Url.hostPort parsed.netloc
      Url.isAscii host && !hostPort.1.isEmpty && parsed.netloc == host && parsed.path.isEmpty &&
        parsed.query.isEmpty && parsed.fragment.isEmpty && !parsed.netloc.contains '@' &&
        !(host.any fun c => isSpace c || c == '\\') && Url.portOk hostPort.2
  | _ => false

def validTarget (cfg : Config) (scope : Scope) : Bool :=
  validHost cfg scope.headers && ("/" : Text).isPrefixOf scope.path

inductive State (S : Type) where
  | reading (chunks : List Bytes) (size : Nat)
  | refusing (rest : List Sent)
  /-- The client is gone. -/
  | closed
  /-- The application runs.  `body` is what `replay` still has to hand over. -/
  | inside (body : Option Bytes) (s : S)

variable {S : Type}

/-- `BodyLimitMiddleware.__call__`, up to its first message. -/
def enter (cfg : Config) (scope : Scope) (s : S) : State S :=
  if scope.type ≠ "http" then .inside none s
  else if !validTarget cfg scope then .refusing badTarget
  else .reading [] 0

/-- The loop that collects the body, after one more message. -/
def collect (cfg : Config) (s : S) (chunks : List Bytes) (size : Nat) : Option Message → State S
  | none => .refusing timedOut
  | some .disconnect => .closed
  | some (.request chunk moreBody) =>
    let size := size + chunk.length
    if size > cfg.settings.maxRequestBodyBytes then .refusing tooLarge
    else if moreBody then .reading (chunks ++ [chunk]) size
    else .inside (some (chunks ++ [chunk]).flatten) s

/-- The application with the server's own `receive`. -/
def passThrough (P : Process Message Sent S) (s : S) : Act Message Sent (State S) :=
  match P s with
  | .receive limit k => .receive limit fun i => .inside none (k i)
  | .send o s => .send o (.inside none s)
  | .done => .done

/-- The application with `replay` for its `receive`: the body is at hand, and what is
read after it comes from the server. -/
def replay (P : Process Message Sent S) (body : Bytes) (s : S) : Act Message Sent (State S) :=
  match P s with
  | .receive _ k => passThrough P (k (some (.request body false)))
  | .send o s => .send o (.inside (some body) s)
  | .done => .done

/-- The middleware around the application `P`, which starts in the state `s₀`. -/
def bodyLimit (cfg : Config) (P : Process Message Sent S) (s₀ : S) :
    Process Message Sent (State S)
  | .reading chunks size => .receive (some 30) (collect cfg s₀ chunks size)
  | .refusing [] => .done
  | .refusing (o :: rest) => .send o (.refusing rest)
  | .closed => .done
  | .inside none s => passThrough P s
  | .inside (some body) s => replay P body s

/-! ## Uploads -/

def total (chunks : List Bytes) : Nat := chunks.flatten.length

/-- The messages of a body that is not complete yet. -/
def partly (chunks : List Bytes) : List (Option Message) :=
  chunks.map fun c => some (.request c true)

/-- The messages of a whole body. -/
def upload (chunks : List Bytes) (last : Bytes) : List (Option Message) :=
  partly chunks ++ [some (.request last false)]

@[simp] theorem partly_nil : partly [] = [] := rfl

theorem total_concat (chunks : List Bytes) (c : Bytes) :
    total (chunks ++ [c]) = total chunks + c.length := by
  simp [total]

theorem mem_partly {i : Option Message} {chunks : List Bytes} (h : i ∈ partly chunks) :
    ∃ c, i = some (.request c true) := by
  obtain ⟨c, -, hc⟩ := List.mem_map.mp h
  exact ⟨c, hc.symm⟩

/-- The end of a body marks where it ends. -/
theorem upload_of_partly_concat {chunks chunks' : List Bytes} {last : Bytes} {i : Option Message}
    {more : List (Option Message)} (h : partly chunks ++ [i] = upload chunks' last ++ more) :
    chunks' = chunks ∧ i = some (.request last false) ∧ more = [] := by
  induction chunks generalizing chunks' with
  | nil =>
    cases chunks' with
    | nil =>
      obtain ⟨hi, hmore⟩ := List.cons.inj h
      exact ⟨rfl, hi, hmore.symm⟩
    | cons c chunks' => simp [upload, partly] at h
  | cons c chunks ih =>
    cases chunks' with
    | nil => simp [upload, partly] at h
    | cons c' chunks' =>
      simp only [upload, partly, List.map_cons, List.cons_append, List.cons.injEq,
        Option.some.injEq, Message.request.injEq, and_true] at h
      obtain ⟨hc, hrest⟩ := h
      obtain ⟨hchunks, hi, hmore⟩ := ih hrest
      exact ⟨by rw [hc, hchunks], hi, hmore⟩

theorem upload_ne_partly {chunks chunks' : List Bytes} {last : Bytes}
    {more : List (Option Message)} (h : upload chunks last ++ more = partly chunks') : False := by
  have hmem : some (Message.request last false) ∈ partly chunks' := by
    rw [← h]
    simp [upload]
  obtain ⟨c, hc⟩ := mem_partly hmem
  cases hc

/-! ## Histories -/

/-- Why a request is refused after these messages, and with what answer. -/
inductive Refuses (cfg : Config) (scope : Scope) : List (Option Message) → List Sent → Prop where
  | target : validTarget cfg scope = false → Refuses cfg scope [] badTarget
  | silence {chunks : List Bytes} : validTarget cfg scope = true →
      total chunks ≤ cfg.settings.maxRequestBodyBytes →
      Refuses cfg scope (partly chunks ++ [none]) timedOut
  | excess {chunks : List Bytes} {c : Bytes} {moreBody : Bool} : validTarget cfg scope = true →
      total chunks ≤ cfg.settings.maxRequestBodyBytes →
      cfg.settings.maxRequestBodyBytes < total (chunks ++ [c]) →
      Refuses cfg scope (partly chunks ++ [some (.request c moreBody)]) tooLarge

/-- The history of the application behind a history that goes on with `pre ++ post`:
it read nothing up to `pre`, then the body, and then what the server delivered. -/
inductive Serves (P : Process Message Sent S) (s₀ : S) (body : Bytes) (rest : History) :
    Option Bytes → S → Prop where
  | untouched {s : S} : received rest = [] → Runs P s₀ rest s → Serves P s₀ body rest (some body) s
  | replayed {pre post : History} {s : S} : rest = pre ++ post → received pre = [] →
      Runs P s₀ (pre ++ .got (some (.request body false)) :: post) s →
      Serves P s₀ body rest none s

/-- What led to a state of the middleware. -/
def Explains (cfg : Config) (scope : Scope) (P : Process Message Sent S) (s₀ : S)
    (past : History) : State S → Prop
  | .reading chunks size => validTarget cfg scope = true ∧ past = (partly chunks).map .got ∧
      size = total chunks ∧ size ≤ cfg.settings.maxRequestBodyBytes
  | .refusing rest => ∃ is os, past = is.map .got ++ os.map .put ∧ Refuses cfg scope is (os ++ rest)
  | .closed => ∃ chunks, validTarget cfg scope = true ∧
      past = (partly chunks ++ [some Message.disconnect]).map .got ∧
      total chunks ≤ cfg.settings.maxRequestBodyBytes
  | .inside body s => ∃ chunks last rest, validTarget cfg scope = true ∧
      past = (upload chunks last).map .got ++ rest ∧
      total (chunks ++ [last]) ≤ cfg.settings.maxRequestBodyBytes ∧
      Serves P s₀ (chunks ++ [last]).flatten rest body s

section

variable {cfg : Config} {scope : Scope} {P : Process Message Sent S} {s₀ s : S} {past : History}
  {body : Bytes} {rest : History}

theorem received_gots (is : List (Option Message)) :
    received (is.map Event.got : History) = is := by
  induction is with
  | nil => rfl
  | cons i is ih => simp [received, ih]

theorem received_puts (os : List Sent) : received (os.map Event.put : History) = [] := by
  induction os with
  | nil => rfl
  | cons o os ih => simp [received, ih]

theorem sent_gots (is : List (Option Message)) : sent (is.map Event.got : History) = [] := by
  induction is with
  | nil => rfl
  | cons i is ih => simp [sent, ih]

theorem sent_puts (os : List Sent) : sent (os.map Event.put : History) = os := by
  induction os with
  | nil => rfl
  | cons o os ih => simp [sent, ih]

theorem enter_valid (hhttp : scope.type = "http") (hvalid : validTarget cfg scope = true) :
    enter cfg scope s₀ = .reading [] 0 := by
  simp [enter, hhttp, hvalid]

theorem explains_enter (hhttp : scope.type = "http") :
    Explains cfg scope P s₀ [] (enter cfg scope s₀) := by
  rw [enter, if_neg (by simp [hhttp])]
  cases hvalid : validTarget cfg scope with
  | false => exact ⟨[], [], rfl, .target hvalid⟩
  | true => exact ⟨hvalid, rfl, rfl, Nat.zero_le _⟩

/-- One more message while the body is read. -/
theorem explains_collect {chunks : List Bytes} {size : Nat} (i : Option Message)
    (h : Explains cfg scope P s₀ past (.reading chunks size)) :
    Explains cfg scope P s₀ (past ++ [.got i]) (collect cfg s₀ chunks size i) := by
  obtain ⟨hvalid, rfl, rfl, hle⟩ := h
  match i with
  | none => exact ⟨partly chunks ++ [none], [], by simp, .silence hvalid hle⟩
  | some .disconnect => exact ⟨chunks, hvalid, by simp, hle⟩
  | some (.request c moreBody) =>
    have hsize : total chunks + c.length = total (chunks ++ [c]) := (total_concat chunks c).symm
    simp only [collect, hsize]
    split
    next hgt =>
      exact ⟨partly chunks ++ [some (.request c moreBody)], [], by simp, .excess hvalid hle hgt⟩
    next hle' =>
      cases moreBody with
      | true => exact ⟨hvalid, by simp [partly], rfl, Nat.le_of_not_lt hle'⟩
      | false =>
        exact ⟨chunks, c, [], hvalid, by simp [upload], Nat.le_of_not_lt hle',
          .untouched rfl (.here s₀)⟩

/-- The body has been read, and the application goes on with the server. -/
theorem serves_passThrough_got {pre post : History} {limit : Option Nat}
    {k : Option Message → State S} {i : Option Message}
    (hpre : received pre = [])
    (hruns : Runs P s₀ (pre ++ .got (some (.request body false)) :: post) s)
    (hact : passThrough P s = .receive limit k) (hi : i = none → limit ≠ none) :
    ∃ s', k i = .inside none s' ∧ Serves P s₀ body (pre ++ post ++ [.got i]) none s' := by
  unfold passThrough at hact
  cases hP : P s with
  | receive limit' k' =>
    rw [hP] at hact
    cases hact
    refine ⟨k' i, rfl, .replayed (List.append_assoc _ _ _) hpre ?_⟩
    have hnext := hruns.append (.got hP hi (.here (k' i)))
    simpa using hnext
  | send o s' =>
    rw [hP] at hact
    cases hact
  | done =>
    rw [hP] at hact
    cases hact

theorem serves_passThrough_put {pre post : History} {o : Sent} {st : State S}
    (hpre : received pre = [])
    (hruns : Runs P s₀ (pre ++ .got (some (.request body false)) :: post) s)
    (hact : passThrough P s = .send o st) :
    ∃ s', st = .inside none s' ∧ Serves P s₀ body (pre ++ post ++ [.put o]) none s' := by
  unfold passThrough at hact
  cases hP : P s with
  | receive limit k =>
    rw [hP] at hact
    cases hact
  | send o' s' =>
    rw [hP] at hact
    cases hact
    refine ⟨s', rfl, .replayed (List.append_assoc _ _ _) hpre ?_⟩
    have hnext := hruns.append (.put hP (.here s'))
    simpa using hnext
  | done =>
    rw [hP] at hact
    cases hact

/-- The application asks for the body, and has it. -/
theorem runs_replay {limit : Option Nat} {k : Option Message → S} (hruns : Runs P s₀ rest s)
    (hP : P s = .receive limit k) :
    Runs P s₀ (rest ++ [.got (some (.request body false))]) (k (some (.request body false))) :=
  hruns.append (.got hP (fun h => by cases h) (.here _))

theorem explains_got {st : State S} {limit : Option Nat} {k : Option Message → State S}
    (i : Option Message) (h : Explains cfg scope P s₀ past st)
    (hact : bodyLimit cfg P s₀ st = .receive limit k) (hi : i = none → limit ≠ none) :
    Explains cfg scope P s₀ (past ++ [.got i]) (k i) := by
  match st with
  | .reading chunks size =>
    cases hact
    exact explains_collect i h
  | .refusing [] => cases hact
  | .refusing (_ :: _) => cases hact
  | .closed => cases hact
  | .inside none s =>
    obtain ⟨chunks, last, rest, hvalid, rfl, hle, hserves⟩ := h
    cases hserves with
    | replayed hrest hpre hruns =>
      subst hrest
      obtain ⟨s', hk, hserves'⟩ := serves_passThrough_got hpre hruns hact hi
      rw [hk]
      exact ⟨chunks, last, _, hvalid, by simp, hle, hserves'⟩
  | .inside (some body) s =>
    obtain ⟨chunks, last, rest, hvalid, rfl, hle, hserves⟩ := h
    cases hserves with
    | untouched hnone hruns =>
      cases hP : P s with
      | receive limit' k' =>
        simp only [bodyLimit, replay, hP] at hact
        obtain ⟨s', hk, hserves'⟩ := serves_passThrough_got hnone (runs_replay hruns hP) hact hi
        rw [hk]
        refine ⟨chunks, last, rest ++ [.got i], hvalid, by simp, hle, ?_⟩
        rwa [List.append_nil] at hserves'
      | send o s' => simp [bodyLimit, replay, hP] at hact
      | done => simp [bodyLimit, replay, hP] at hact

theorem explains_put {st st' : State S} {o : Sent} (h : Explains cfg scope P s₀ past st)
    (hact : bodyLimit cfg P s₀ st = .send o st') :
    Explains cfg scope P s₀ (past ++ [.put o]) st' := by
  match st with
  | .reading _ _ => cases hact
  | .refusing [] => cases hact
  | .refusing (o' :: rest) =>
    cases hact
    obtain ⟨is, os, rfl, hrefuses⟩ := h
    exact ⟨is, os ++ [o], by simp, by simpa using hrefuses⟩
  | .closed => cases hact
  | .inside none s =>
    obtain ⟨chunks, last, rest, hvalid, rfl, hle, hserves⟩ := h
    cases hserves with
    | replayed hrest hpre hruns =>
      subst hrest
      obtain ⟨s', rfl, hserves'⟩ := serves_passThrough_put hpre hruns hact
      exact ⟨chunks, last, _, hvalid, by simp, hle, hserves'⟩
  | .inside (some body) s =>
    obtain ⟨chunks, last, rest, hvalid, rfl, hle, hserves⟩ := h
    cases hserves with
    | untouched hnone hruns =>
      cases hP : P s with
      | receive limit k =>
        simp only [bodyLimit, replay, hP] at hact
        obtain ⟨s', rfl, hserves'⟩ := serves_passThrough_put hnone (runs_replay hruns hP) hact
        refine ⟨chunks, last, rest ++ [.put o], hvalid, by simp, hle, ?_⟩
        rwa [List.append_nil] at hserves'
      | send o' s' =>
        simp only [bodyLimit, replay, hP] at hact
        cases hact
        refine ⟨chunks, last, rest ++ [.put o], hvalid, by simp, hle, .untouched ?_ ?_⟩
        · simp [hnone, received]
        · exact hruns.append (.put hP (.here s'))
      | done => simp [bodyLimit, replay, hP] at hact

/-- Whatever happens, the state of the middleware is accounted for. -/
theorem explains_of_runs {es : History} {st : State S} (hhttp : scope.type = "http")
    (h : Runs (bodyLimit cfg P s₀) (enter cfg scope s₀) es st) :
    Explains cfg scope P s₀ es st :=
  h.invariant (explains_enter hhttp)
    (fun _ _ _ _ i hJ hact hi => explains_got i hJ hact hi)
    fun _ _ _ _ hJ hact => explains_put hJ hact

/-! ## Whole runs -/

/-- The application has been started. -/
def State.Started : State S → Prop
  | .inside _ _ => True
  | _ => False

def bodies (is : List (Option Message)) : List Bytes :=
  is.filterMap fun i => match i with
    | some (.request c _) => some c
    | _ => none

@[simp] theorem bodies_partly (chunks : List Bytes) : bodies (partly chunks) = chunks := by
  simp [bodies, partly, List.filterMap_map]

/-- The request has a whole body in these messages, and may pass. -/
def Passes (cfg : Config) (scope : Scope) (is : List (Option Message)) : Prop :=
  validTarget cfg scope = true ∧ ∃ chunks last, upload chunks last <+: is ∧
    total (chunks ++ [last]) ≤ cfg.settings.maxRequestBodyBytes

theorem not_passes_partly (chunks : List Bytes) : ¬Passes cfg scope (partly chunks) := by
  rintro ⟨-, chunks', last, ⟨more, hmore⟩, -⟩
  exact upload_ne_partly hmore

theorem passes_partly_concat {chunks : List Bytes} {i : Option Message}
    (h : Passes cfg scope (partly chunks ++ [i])) :
    ∃ last, i = some (.request last false) ∧
      total (chunks ++ [last]) ≤ cfg.settings.maxRequestBodyBytes := by
  obtain ⟨-, chunks', last, ⟨more, hmore⟩, hle⟩ := h
  obtain ⟨rfl, hi, -⟩ := upload_of_partly_concat hmore.symm
  exact ⟨last, hi, hle⟩

theorem Refuses.not_passes {is : List (Option Message)} {answer : List Sent}
    (h : Refuses cfg scope is answer) : ¬Passes cfg scope is := by
  intro hpasses
  cases h with
  | target hvalid => exact absurd hpasses.1 (by simp [hvalid])
  | silence _ _ =>
    obtain ⟨last, hi, -⟩ := passes_partly_concat hpasses
    cases hi
  | excess _ _ hgt =>
    obtain ⟨last, hi, hle⟩ := passes_partly_concat hpasses
    cases hi
    exact absurd hle (Nat.not_le.mpr hgt)

/-- What was buffered when the last message came is within the limit. -/
theorem Refuses.buffered {is : List (Option Message)} {answer : List Sent}
    (h : Refuses cfg scope is answer) :
    total (bodies is.dropLast) ≤ cfg.settings.maxRequestBodyBytes := by
  cases h with
  | target _ => exact Nat.zero_le _
  | silence _ hle => simpa using hle
  | excess _ hle _ => simpa using hle

theorem total_dropLast (chunks : List Bytes) : total chunks.dropLast ≤ total chunks := by
  induction chunks using List.reverseRecOn with
  | nil => exact Nat.le_refl _
  | append_singleton chunks c _ =>
    rw [List.dropLast_concat, total_concat]
    exact Nat.le_add_right _ _

/-- What a run shows of a request whose application has not been started. -/
structure HeldBack (cfg : Config) (scope : Scope) (es : History) : Prop where
  /-- It was read up to some point, and then it was answered. -/
  order : es = (received es).map .got ++ (sent es).map .put
  buffered : total (bodies (received es).dropLast) ≤ cfg.settings.maxRequestBodyBytes
  answered : sent es = [] ∨ ∃ answer, Refuses cfg scope (received es) answer ∧ sent es <+: answer

theorem explains_heldBack {es : History} {st : State S} (h : Explains cfg scope P s₀ es st)
    (hst : ¬st.Started) : HeldBack cfg scope es ∧ ¬Passes cfg scope (received es) := by
  match st with
  | .reading chunks size =>
    obtain ⟨hvalid, rfl, rfl, hle⟩ := h
    refine ⟨⟨?_, ?_, ?_⟩, ?_⟩
    · simp [received_gots, sent_gots]
    · rw [received_gots, partly, ← List.map_dropLast]
      exact (bodies_partly chunks.dropLast).symm ▸ (total_dropLast chunks).trans hle
    · exact Or.inl (sent_gots _)
    · rw [received_gots]
      exact not_passes_partly chunks
  | .refusing rest =>
    obtain ⟨is, os, rfl, hrefuses⟩ := h
    have hreceived : received (is.map Event.got ++ os.map Event.put : History) = is := by
      rw [received_append, received_gots, received_puts, List.append_nil]
    have hsent : sent (is.map Event.got ++ os.map Event.put : History) = os := by
      rw [sent_append, sent_gots, sent_puts, List.nil_append]
    refine ⟨⟨?_, ?_, ?_⟩, ?_⟩
    · rw [hreceived, hsent]
    · rw [hreceived]
      exact hrefuses.buffered
    · rw [hreceived, hsent]
      exact Or.inr ⟨_, hrefuses, List.prefix_append os rest⟩
    · rw [hreceived]
      exact hrefuses.not_passes
  | .closed =>
    obtain ⟨chunks, hvalid, rfl, hle⟩ := h
    refine ⟨⟨?_, ?_, ?_⟩, ?_⟩
    · rw [received_gots, sent_gots, List.map_nil, List.append_nil]
    · rw [received_gots, List.dropLast_concat, bodies_partly]
      exact hle
    · exact Or.inl (sent_gots _)
    · rw [received_gots]
      intro hpasses
      obtain ⟨last, hi, -⟩ := passes_partly_concat hpasses
      cases hi
  | .inside _ _ => exact absurd trivial hst

theorem explains_started {es : History} {st : State S} (h : Explains cfg scope P s₀ es st)
    (hst : st.Started) : Passes cfg scope (received es) := by
  match st with
  | .inside _ _ =>
    obtain ⟨chunks, last, rest, hvalid, rfl, hle, -⟩ := h
    refine ⟨hvalid, chunks, last, ?_, hle⟩
    rw [received_append, received_gots]
    exact List.prefix_append _ _

/-- A request is held back with one answer at most, or its body reaches the application
in one piece, and then the application and the server talk as if nothing stood between. -/
theorem limited_runs {es : History} {st : State S} (hhttp : scope.type = "http")
    (h : Runs (bodyLimit cfg P s₀) (enter cfg scope s₀) es st) :
    (st.Started ↔ Passes cfg scope (received es)) ∧
      (∀ body s, st = .inside body s → ∃ chunks last rest,
        es = (upload chunks last).map .got ++ rest ∧
          Serves P s₀ (chunks ++ [last]).flatten rest body s) ∧
      (¬st.Started → HeldBack cfg scope es) ∧
      (¬st.Started → bodyLimit cfg P s₀ st = .done →
        (∃ chunks, received es = partly chunks ++ [some .disconnect] ∧ sent es = []) ∨
          Refuses cfg scope (received es) (sent es)) := by
  have hexplains := explains_of_runs hhttp h
  refine ⟨⟨explains_started hexplains, fun hpasses => ?_⟩, ?_, ?_, ?_⟩
  · by_contra hst
    exact (explains_heldBack hexplains hst).2 hpasses
  · rintro body s rfl
    obtain ⟨chunks, last, rest, -, hes, -, hserves⟩ := hexplains
    exact ⟨chunks, last, rest, hes, hserves⟩
  · exact fun hst => (explains_heldBack hexplains hst).1
  · intro hst hdone
    match st with
    | .reading _ _ => cases hdone
    | .refusing [] =>
      obtain ⟨is, os, rfl, hrefuses⟩ := hexplains
      rw [received_append, received_gots, received_puts, List.append_nil, sent_append, sent_gots,
        sent_puts, List.nil_append]
      rw [List.append_nil] at hrefuses
      exact Or.inr hrefuses
    | .refusing (_ :: _) => cases hdone
    | .closed =>
      obtain ⟨chunks, -, rfl, -⟩ := hexplains
      exact Or.inl ⟨chunks, received_gots _, sent_gots _⟩
    | .inside _ _ => exact absurd trivial hst

end

/-- An application that sends back the body it reads. -/
def mockEcho : Process Message Sent (Option (Option Bytes))
  | some none => .receive none fun i => match i with
    | some (.request body _) => some (some body)
    | _ => none
  | some (some body) => .send (.body body) none
  | none => .done

/-- A body in two pieces is sent back whole, and one that stops half-way is answered by the
middleware. -/
theorem limited_runs_mock :
    let scope : Scope := ⟨"http", "/x", [(utf8 "host", utf8 "a")]⟩
    let es : History := (upload [[1]] [2]).map .got ++ [.put (.body [1, 2])]
    let es' : History := (partly [[1]] ++ [none]).map .got ++ timedOut.map .put
    (∃ st, Runs (bodyLimit mockConfig mockEcho (some none)) (enter mockConfig scope (some none))
      es st ∧ Passes mockConfig scope (received es)) ∧
    ∃ st, Runs (bodyLimit mockConfig mockEcho (some none)) (enter mockConfig scope (some none))
      es' st ∧ HeldBack mockConfig scope es' := by
  intro scope es es'
  have henter : enter mockConfig scope (some none : Option (Option Bytes)) = .reading [] 0 :=
    enter_valid rfl (by decide +kernel)
  have hruns : Runs (bodyLimit mockConfig mockEcho (some none))
      (enter mockConfig scope (some none)) es (.inside none none) := by
    rw [henter]
    exact .got rfl (fun _ => by decide) (.got rfl (fun _ => by decide) (.put rfl (.here _)))
  have hruns' : Runs (bodyLimit mockConfig mockEcho (some none))
      (enter mockConfig scope (some none)) es' (.refusing []) := by
    rw [henter]
    exact .got rfl (fun _ => by decide) (.got rfl (fun _ => by decide)
      (.put rfl (.put rfl (.here _))))
  exact ⟨⟨_, hruns, (limited_runs (rfl : scope.type = "http") hruns).1.mp trivial⟩,
    _, hruns', (limited_runs (rfl : scope.type = "http") hruns').2.2.1 id⟩

/-! ## The body in the proxy -/

section

variable {cfg : Config} {inc : Incoming} {chunks : List Bytes} {last : Bytes} {es : History}
  {st : State Reading}

end

end BodyLimit
end AdaptiveGateway
