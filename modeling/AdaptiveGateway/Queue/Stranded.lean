/-
Entries that no command hands out any more.

An entry of the stream can be fetched again as long as the group has not
delivered it yet or lists it as pending.  `_ack` removes an entry from the
pending list before it removes it from the stream, and every other command keeps
the property.  So along a run the property holds in every state exactly if no
step acknowledges a pending entry that the stream still holds.
-/
import AdaptiveGateway.Queue.Effects

namespace AdaptiveGateway
namespace Queue

open Codec Concurrent

variable {i : Thread} {s s' : World} {m : EntryId}

/-- `XREADGROUP` or `XAUTOCLAIM` can hand the entry out.  Before the group
exists, creating it makes every entry new. -/
def Findable (s : World) (m : EntryId) : Prop :=
  ∀ g, s.group = some g → g.lastDelivered < m ∨ ∃ p ∈ g.pel, p.id = m

def NoneStranded (s : World) : Prop := ∀ e ∈ s.stream, Findable s e.1

/-- The entry is pending and the stream still holds it. -/
def PendingPresent (s : World) (m : EntryId) : Prop :=
  s.has m = true ∧ ∃ g, s.group = some g ∧ ∃ p ∈ g.pel, p.id = m

theorem noneStranded_start : NoneStranded {} := by
  intro e he
  cases he

theorem NoneStranded.congr {t : World} (h : NoneStranded s) (hstream : t.stream = s.stream)
    (hgroup : t.group = s.group) : NoneStranded t := by
  intro e he g hg
  rw [hstream] at he
  rw [hgroup] at hg
  exact h e he g hg

/-- Every effect keeps the property, except the acknowledgement of an entry that
is still there. -/
theorem perform_noneStranded {c : Cmd} {a : Option UpstreamAnswer} {o : Except Exc (Ans c)}
    (ho : Ordered s) (hs : NoneStranded s) (hc : ∀ m, c = .xack m → ¬PendingPresent s m)
    (h : perform i a s c = some (o, s')) : NoneStranded s' := by
  obtain ⟨h1, h2, h3⟩ | ⟨-, h1, h2, h3⟩ | ⟨-, f, -, h1, h2, h3⟩ | ⟨n, g, hg, h1, h2, h3⟩ |
    ⟨idle, st, n, g, hg, h1, h2, h3⟩ | ⟨m, hm, h1, h2, h3⟩ | ⟨m, -, h1, h2, h3⟩ := perform_stream h
  · exact hs.congr h1 h3
  · intro e he g hg
    rw [h3] at hg
    cases hg
    exact Or.inl (ho.bounded e (h1 ▸ he)).1
  · intro e he g hg
    rw [h1] at he
    rw [h3] at hg
    rcases List.mem_append.mp he with he | he
    · exact hs e he g hg
    · obtain rfl : e = (s.lastId + 1, f.encode) := by simpa using he
      exact Or.inl (Nat.lt_succ_of_le (ho.delivered g hg))
  · intro e he g' hg'
    rw [h1] at he
    rw [h3] at hg'
    cases hg'
    rcases hs e he g hg with hlt | ⟨p, hp, hid⟩
    · exact readGroup_covers ho he hlt
    · exact Or.inr ⟨p, List.mem_append_left _ hp, hid⟩
  · intro e he g' hg'
    rw [h1] at he
    rw [h3] at hg'
    cases hg'
    rcases hs e he g hg with hlt | ⟨p, hp, hid⟩
    · exact Or.inl hlt
    · right
      have hhas : s.has p.id = true := has_iff.mpr ⟨e.2, by rw [hid]; exact he⟩
      by_cases hst : p.id < st
      · exact ⟨p, List.mem_append_left _ (by simp [hp, hst]), hid⟩
      · have hp' : p ∈ g.pel.filter fun p => decide (st ≤ p.id) := by
          simp [hp, Nat.le_of_not_lt hst]
        have hkept : ∃ q ∈ (s.claim i g idle st n).pel, q.id = p.id := claimScan_keeps hp' hhas
        obtain ⟨q, hq, hqid⟩ := hkept
        exact ⟨q, List.mem_append_right _ hq, hqid.trans hid⟩
  · intro e he g' hg'
    rw [h1] at he
    rw [h3] at hg'
    obtain ⟨g, hg, rfl⟩ := Option.map_eq_some_iff.mp hg'
    rcases hs e he g hg with hlt | ⟨p, hp, hid⟩
    · exact Or.inl hlt
    · have hne : p.id ≠ m := by
        intro hpm
        exact hc m hm ⟨has_iff.mpr ⟨e.2, by rw [← hpm, hid]; exact he⟩, g, hg, p, hp, hpm⟩
      exact Or.inr ⟨p, by simp [Group.ack, hp, hne], hid⟩
  · intro e he g hg
    rw [h1] at he
    rw [h3] at hg
    exact hs e (List.mem_of_mem_filter he) g hg

/-- Acknowledging a pending entry that is still in the stream strands it. -/
theorem ack_strands {a : Option UpstreamAnswer} {o : Except Exc (Ans (.xack m))} (ho : Ordered s)
    (hm : PendingPresent s m) (h : perform i a s (.xack m) = some (o, s')) : ¬NoneStranded s' := by
  obtain ⟨hhas, g, hg, p, hp, hid⟩ := hm
  obtain ⟨f, hf⟩ := has_iff.mp hhas
  cases h
  intro hnone
  have hg' : (World.record { s with group := s.group.map (Group.ack m) } (.xacked m)).group =
      some (Group.ack m g) := by simp [hg]
  rcases hnone (m, f) hf (Group.ack m g) hg' with hlt | ⟨q, hq, hqid⟩
  · have hle := ho.pending g hg p hp
    rw [hid] at hle
    exact absurd hlt (Nat.not_lt.mpr hle)
  · simp [Group.ack] at hq
    exact hq.2 hqid

/-! ## Runs -/

variable {cfg : Config} {writes : Nat → Write}

/-- The label makes some thread acknowledge a pending entry that the stream still
holds.  A refused command has no effect. -/
def AcksPresent (p : Pool Thread Cmd Ans Exc (Option EntryId) World) :
    Label Thread Choice Time → Prop
  | .act i ch => (∀ e, ch ≠ .refuse e) ∧
      ∃ m k, p.prog i = some (.call (.xack m) k) ∧ PendingPresent p.state m
  | _ => False

theorem step_ordered {p q : Pool Thread Cmd Ans Exc (Option EntryId) World}
    {l : Label Thread Choice Time} (h : (machine cfg writes).step p l = some q)
    (hp : Ordered p.state) : Ordered q.state := by
  obtain ⟨i, ch, c, k, r, s, rfl, hpr, he, rfl⟩ | ⟨i, r, n, rfl, -, -, rfl⟩ |
    ⟨i, rfl, rfl⟩ | ⟨d, s, rfl, he, rfl⟩ := Machine.step_cases h
  · exact exec_ordered hp he
  · exact hp
  · exact hp.congr rfl rfl rfl
  · cases he
    exact hp.congr rfl rfl rfl

/-- One step keeps the property exactly if it does not acknowledge a present
entry. -/
theorem step_noneStranded {p q : Pool Thread Cmd Ans Exc (Option EntryId) World}
    {l : Label Thread Choice Time} (h : (machine cfg writes).step p l = some q)
    (hp : Ordered p.state) (hn : NoneStranded p.state) :
    NoneStranded q.state ↔ ¬AcksPresent p l := by
  obtain ⟨i, ch, c, k, r, s, rfl, hpr, he, rfl⟩ | ⟨i, r, n, rfl, -, -, rfl⟩ |
    ⟨i, rfl, rfl⟩ | ⟨d, s, rfl, he, rfl⟩ := Machine.step_cases h
  · have he' : exec i c ch p.state = some (r, s) := he
    obtain ⟨e, rfl, -, rfl⟩ | ⟨a, o, s₁, hch, hperf, -, rfl⟩ := exec_cases he'
    · refine ⟨fun _ hack => hack.1 e rfl, fun _ => ?_⟩
      exact hn.congr (by simp) (by simp)
    · constructor
      · rintro hq ⟨-, m, k', hk, hpres⟩
        rw [hk] at hpr
        obtain ⟨rfl, -⟩ := Prog.call.inj (Option.some.inj hpr)
        exact ack_strands hp hpres hperf (hq.congr (by simp) (by simp))
      · intro hack
        refine NoneStranded.congr (perform_noneStranded hp hn ?_ hperf) (by simp) (by simp)
        rintro m rfl hpres
        exact hack ⟨hch, m, k, hpr, hpres⟩
  · exact ⟨fun _ h => h, fun _ => hn⟩
  · exact ⟨fun _ h => h, fun _ => hn.congr rfl rfl⟩
  · cases he
    exact ⟨fun _ h => h, fun _ => hn.congr rfl rfl⟩

/-- Along every run, from the empty stores on, each entry of the stream can be
fetched again exactly if no step of the run acknowledges a pending entry before
it has been deleted. -/
theorem noneStranded_iff_no_ack_before_delete (cfg : Config) (writes : Nat → Write)
    (ls : List (Label Thread Choice Time)) :
    (∀ q, (machine cfg writes).Visits ((machine cfg writes).start {}) ls q →
      NoneStranded q.state) ↔
    ∀ p l, (machine cfg writes).Takes ((machine cfg writes).start {}) ls p l →
      ¬AcksPresent p l :=
  Machine.visits_iff_takes (J := Ordered) (P := NoneStranded) (B := AcksPresent)
    ordered_start noneStranded_start (fun _ _ _ h => step_ordered h)
    (fun _ _ _ h => step_noneStranded h) ls

/-- A worker reads a write, replays it, is answered 200, and crashes after the
`XACK` of `_ack`. -/
def crashInAck : List (Label Thread Choice Time) :=
  steps (.client 0) 2 ++ steps (.worker 0) 11 ++
    [.act (.worker 0) (.answer ⟨200, Dict.empty, [], []⟩)] ++ steps (.worker 0) 1 ++
    [.crash (.worker 0)]

/-- The entry then stays in the stream, delivered and not pending. -/
theorem ack_cut_by_crash_strands : ¬∀ cfg writes q,
    (machine cfg writes).Reach Guard.any ((machine cfg writes).start {}) q →
      NoneStranded q.state := by
  intro hall
  let M := machine mockConfig fun _ => mockWrite
  have hrun : ((M.run (M.start {}) crashInAck).map fun q =>
      (q.state.stream.map Prod.fst, q.state.group)) = some ([1], some ⟨1, []⟩) := by
    decide +kernel
  obtain ⟨q, hq, hobs⟩ := Option.map_eq_some_iff.mp hrun
  obtain ⟨hstream, hgroup⟩ := Prod.mk.inj hobs
  obtain ⟨e, he, hid⟩ := List.mem_map.mp (hstream.symm ▸ List.mem_singleton_self 1)
  rcases hall _ _ q (Machine.reach_of_run hq) e he _ hgroup with hlt | ⟨p, hp, -⟩
  · exact absurd hlt (by simp [hid])
  · cases hp

end Queue
end AdaptiveGateway
