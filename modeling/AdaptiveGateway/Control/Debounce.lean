/-
A value that follows a stream of proposals with a dwell count.

A proposal that differs from the current value has to be made `N` times in a row
before it is taken over.  Two facts are developed.  The value changes exactly
when the last `N` proposals agree, and two such values stay in order when their
proposals do, as long as neither of them loses its count to a change of target
on the same side.
-/
import Mathlib.Algebra.Order.Monoid.Unbundled.WithTop
import Mathlib.Algebra.Order.Ring.Int
import Mathlib.Data.Int.ConditionallyCompleteOrder
import Mathlib.Tactic.GCongr
import Mathlib.Tactic.NormNum

namespace Control

structure Debounce (τ : Type) where
  current : τ
  pending : Option τ
  count : Int

namespace Debounce

variable {τ : Type}

/-! ## Streaks -/

/-- The `m` proposals before `n` were all `d`, and the value stood still. -/
structure Streak (s : ℕ → Debounce τ) (c : ℕ → τ) (d : τ) (m n : ℕ) : Prop where
  le : m ≤ n
  still : ∀ i, n - m ≤ i → i < n → (s i).current = (s n).current
  agree : ∀ i, n - m ≤ i → i < n → c i = d

variable {s : ℕ → Debounce τ} {c : ℕ → τ} {n : ℕ}

/-- Where a step keeps the value, the streak behind a pending target is one longer. -/
theorem Streak.succ {d : τ} {m : ℕ} (h : Streak s c d m n) (hs : (s (n + 1)).current = (s n).current)
    (hc : c n = d) : Streak s c d (m + 1) (n + 1) where
  le := by have := h.le; omega
  still := by
    intro i hi hin
    rw [hs]
    by_cases hi' : i = n
    · rw [hi']
    · exact h.still i (by omega) (by omega)
  agree := by
    intro i hi hin
    by_cases hi' : i = n
    · rw [hi', hc]
    · exact h.agree i (by omega) (by omega)

theorem streak_zero (d : τ) : Streak s c d 0 n where
  le := Nat.zero_le n
  still := by intro i hi hin; omega
  agree := by intro i hi hin; omega

/-! ## Headings -/

/-- How far a value has come towards the targets in `P`: arrived, or the count it
holds for one of them. -/
def heading (P : τ → Prop) [DecidablePred P] (s : Debounce τ) : WithTop Int :=
  if P s.current then ⊤
  else match s.pending with
    | some d => if P d then s.count else 0
    | none => 0

def CountNonneg (s : Debounce τ) : Prop := ∀ d, s.pending = some d → 0 ≤ s.count

/-- The proposal throws away the count held for another target in `P`. -/
def Redirected (P : τ → Prop) (s : Debounce τ) (c : τ) : Prop :=
  ∃ d, s.pending = some d ∧ P d ∧ P c ∧ d ≠ c

instance [DecidableEq τ] (P : τ → Prop) [DecidablePred P] (s : Debounce τ) (c : τ) :
    Decidable (Redirected P s c) :=
  match h : s.pending with
  | none => isFalse (by rintro ⟨d, hd, -⟩; rw [h] at hd; cases hd)
  | some d => decidable_of_iff (P d ∧ P c ∧ d ≠ c) (by simp [Redirected, h])

theorem Redirected.mono {P Q : τ → Prop} {s : Debounce τ} {c : τ} (h : Redirected P s c)
    (hPQ : ∀ d, P d → Q d) : Redirected Q s c := by
  obtain ⟨d, hp, hd, hc, hne⟩ := h
  exact ⟨d, hp, hPQ d hd, hPQ c hc, hne⟩

section Heading

variable {P : τ → Prop} [DecidablePred P] {x : Debounce τ}

theorem heading_arrived (h : P x.current) : x.heading P = ⊤ := if_pos h

theorem heading_eq_top_iff : x.heading P = ⊤ ↔ P x.current := by
  constructor
  · intro h
    by_contra hP
    rw [heading, if_neg hP] at h
    split at h
    · split at h <;> exact WithTop.coe_ne_top h
    · exact WithTop.coe_ne_top h
  · exact heading_arrived

theorem heading_none (h : ¬P x.current) (hp : x.pending = none) : x.heading P = 0 := by
  rw [heading, if_neg h, hp]

theorem heading_some {d : τ} (h : ¬P x.current) (hp : x.pending = some d) :
    x.heading P = if P d then (x.count : WithTop Int) else 0 := by
  rw [heading, if_neg h, hp]

theorem heading_nonneg (hx : x.CountNonneg) : 0 ≤ x.heading P := by
  by_cases h : P x.current
  · rw [heading_arrived h]
    exact le_top
  cases hp : x.pending with
  | none => rw [heading_none h hp]
  | some d =>
    rw [heading_some h hp]
    split
    · exact WithTop.coe_le_coe.mpr (hx d hp)
    · exact le_rfl

section Order

variable [LinearOrder τ] {a b : Debounce τ}

/-- `a` is ahead of `b` on no way up and `b` ahead of `a` on no way down. -/
structure Below (a b : Debounce τ) : Prop where
  up : ∀ ℓ, a.heading (ℓ ≤ ·) ≤ b.heading (ℓ ≤ ·)
  down : ∀ ℓ, b.heading (· < ℓ) ≤ a.heading (· < ℓ)
  nonneg : a.CountNonneg ∧ b.CountNonneg

theorem Below.refl (h : a.CountNonneg) : Below a a :=
  ⟨fun _ => le_rfl, fun _ => le_rfl, h, h⟩

theorem Below.current_le (h : Below a b) : a.current ≤ b.current := by
  have := h.up a.current
  rw [heading_arrived (le_refl a.current), top_le_iff] at this
  exact heading_eq_top_iff.mp this

end Order

end Heading

/-! ## The step -/

variable [DecidableEq τ]

/-- The count that the proposal `c` reaches. -/
def nextCount (s : Debounce τ) (c : τ) : Int := if some c = s.pending then s.count + 1 else 1

def step (N : Int) (s : Debounce τ) (c : τ) : Debounce τ :=
  if c = s.current then ⟨s.current, none, 0⟩
  else if N ≤ s.nextCount c then ⟨c, none, 0⟩
  else ⟨s.current, some c, s.nextCount c⟩

theorem step_agree (N : Int) (s : Debounce τ) : s.step N s.current = ⟨s.current, none, 0⟩ :=
  if_pos rfl

theorem step_commit {N : Int} {s : Debounce τ} {c : τ} (hc : c ≠ s.current)
    (h : N ≤ s.nextCount c) : s.step N c = ⟨c, none, 0⟩ := by
  rw [step, if_neg hc, if_pos h]

theorem step_wait {N : Int} {s : Debounce τ} {c : τ} (hc : c ≠ s.current)
    (h : s.nextCount c < N) : s.step N c = ⟨s.current, some c, s.nextCount c⟩ := by
  rw [step, if_neg hc, if_neg (by omega)]

/-- Nothing is counted for nothing. -/
theorem step_count_eq_zero {N : Int} {s : Debounce τ} {c : τ}
    (h : (s.step N c).pending = none) : (s.step N c).count = 0 := by
  by_cases hc : c = s.current
  · rw [hc, step_agree]
  by_cases hN : N ≤ s.nextCount c
  · rw [step_commit hc hN]
  · rw [step_wait hc (by omega)] at h
    cases h

/-! ## The count is the length of a run of agreeing proposals -/

/-- What the pending target and its count stand for. -/
def Counts (N : Int) (s : ℕ → Debounce τ) (c : ℕ → τ) (n : ℕ) : Prop :=
  ∀ d, (s n).pending = some d →
    d ≠ (s n).current ∧ ∃ m : ℕ, (s n).count = m ∧ 0 < m ∧ (m : Int) < N ∧ Streak s c d m n

variable {N : Int}

/-- The count that a differing proposal reaches is the length of a streak. -/
theorem Counts.nextCount (h : Counts N s c n) (hN : 0 < N) :
    ∃ m : ℕ, (s n).nextCount (c n) = m + 1 ∧ (m : Int) < N ∧ Streak s c (c n) m n := by
  by_cases hp : some (c n) = (s n).pending
  · obtain ⟨-, m, hm, -, hlt, hst⟩ := h (c n) hp.symm
    exact ⟨m, by rw [Debounce.nextCount, if_pos hp, hm], hlt, hst⟩
  · exact ⟨0, by rw [Debounce.nextCount, if_neg hp]; rfl, by simpa using hN, streak_zero (c n)⟩

theorem Counts.succ (h : Counts N s c n) (hN : 0 < N) (hs : s (n + 1) = (s n).step N (c n)) :
    Counts N s c (n + 1) := by
  intro d hd
  by_cases hc : c n = (s n).current
  · rw [hs, hc, step_agree] at hd
    cases hd
  obtain ⟨m, hm, -, hst⟩ := h.nextCount hN
  by_cases hlt : (s n).nextCount (c n) < N
  · have hs' := hs
    rw [step_wait hc hlt] at hs'
    rw [hs'] at hd
    obtain rfl : c n = d := Option.some.inj hd
    rw [hm] at hlt
    refine ⟨by rw [hs']; exact hc, m + 1, by rw [hs', hm]; rfl, by omega, by omega, ?_⟩
    exact hst.succ (by rw [hs']) rfl
  · rw [hs, step_commit hc (by omega)] at hd
    cases hd

/-- The steps below `L` follow the proposals, from a value with nothing pending. -/
structure Run (N : Int) (s : ℕ → Debounce τ) (c : ℕ → τ) (L : ℕ) : Prop where
  start : (s 0).pending = none
  next : ∀ i, i < L → s (i + 1) = (s i).step N (c i)

variable {L : ℕ}

theorem Run.counts (h : Run N s c L) (hN : 0 < N) : ∀ n, n ≤ L → Counts N s c n := by
  intro n
  induction n with
  | zero =>
    intro _ d hd
    rw [h.start] at hd
    cases hd
  | succ n ih =>
    intro hn
    exact (ih (by omega)).succ hN (h.next n (by omega))

/-- The last `N` proposals up to the one at `n` were `d`, all of them made against
the value that stood before it. -/
structure Agreed (N : Int) (s : ℕ → Debounce τ) (c : ℕ → τ) (n : ℕ) (d : τ) : Prop where
  ne : d ≠ (s n).current
  le : N ≤ n + 1
  still : ∀ i : ℕ, (n : Int) + 1 - N ≤ i → i ≤ n → (s i).current = (s n).current
  agree : ∀ i : ℕ, (n : Int) + 1 - N ≤ i → i ≤ n → c i = d

/-- A change takes `N` agreeing proposals. -/
theorem Run.agreed_of_ne (h : Run N s c L) (hN : 0 < N) (hn : n < L)
    (hne : (s (n + 1)).current ≠ (s n).current) : Agreed N s c n (c n) := by
  rw [h.next n hn] at hne
  by_cases hc : c n = (s n).current
  · rw [hc, step_agree] at hne
    exact absurd rfl hne
  obtain ⟨m, hm, hlt, hst⟩ := (h.counts hN n hn.le).nextCount hN
  have hcount : N ≤ (s n).nextCount (c n) := by
    by_contra hcount
    rw [step_wait hc (by omega)] at hne
    exact hne rfl
  have hle := hst.le
  refine ⟨hc, by omega, ?_, ?_⟩
  · intro i hi hin
    by_cases hi' : i = n
    · rw [hi']
    · exact hst.still i (by omega) (by omega)
  · intro i hi hin
    by_cases hi' : i = n
    · rw [hi']
    · exact hst.agree i (by omega) (by omega)

/-- `N` agreeing proposals make the change.  By induction on the number `j` of the
agreeing proposals already made, whose count is at least `j`. -/
theorem Run.pending_of_agreed (h : Run N s c L) (hN : 0 < N) (hn : n < L) {d : τ}
    (ha : Agreed N s c n d) : ∀ j i : ℕ, (i : Int) = n + 1 - N + j → i ≤ n →
      j = 0 ∨ ((s i).pending = some d ∧ (j : Int) ≤ (s i).count) := by
  intro j
  induction j with
  | zero => intro i _ _; exact .inl rfl
  | succ j ih =>
    intro i hi hin
    obtain ⟨i, rfl⟩ : ∃ i', i = i' + 1 := ⟨i - 1, by have := ha.le; omega⟩
    have hprev := ih i (by omega) (by omega)
    have hd : c i = d := ha.agree i (by omega) (by omega)
    have hcur : (s i).current = (s n).current := ha.still i (by omega) (by omega)
    have hcur' : (s (i + 1)).current = (s n).current := ha.still (i + 1) (by omega) hin
    have hc : c i ≠ (s i).current := by rw [hd, hcur]; exact ha.ne
    have hcount : (j : Int) + 1 ≤ (s i).nextCount (c i) := by
      rcases hprev with rfl | ⟨hp, hj⟩
      · obtain ⟨m, hm, -⟩ := (h.counts hN i (by omega)).nextCount hN
        omega
      · rw [Debounce.nextCount, if_pos (by rw [hd, hp])]
        omega
    have hs := h.next i (by omega)
    have hlt : (s i).nextCount (c i) < N := by
      by_contra hlt
      rw [step_commit hc (by omega)] at hs
      rw [hs] at hcur'
      exact ha.ne (hd.symm.trans hcur')
    rw [step_wait hc hlt] at hs
    refine .inr ⟨by rw [hs, hd], ?_⟩
    rw [hs]
    show ((j + 1 : ℕ) : Int) ≤ (s i).nextCount (c i)
    push_cast
    exact hcount

theorem Run.current_of_agreed (h : Run N s c L) (hN : 0 < N) (hn : n < L) {d : τ}
    (ha : Agreed N s c n d) : (s (n + 1)).current = d := by
  have hd : c n = d := ha.agree n (by omega) (Nat.le_refl n)
  have hc : c n ≠ (s n).current := by rw [hd]; exact ha.ne
  have hcount : N ≤ (s n).nextCount (c n) := by
    obtain ⟨j, hj⟩ : ∃ j : ℕ, N = j + 1 := ⟨(N - 1).toNat, by omega⟩
    rcases h.pending_of_agreed hN hn ha j n (by omega) (Nat.le_refl n) with rfl | ⟨hp, hle⟩
    · obtain ⟨m, hm, -⟩ := (h.counts hN n hn.le).nextCount hN
      omega
    · rw [Debounce.nextCount, if_pos (by rw [hd, hp])]
      omega
  rw [h.next n hn, step_commit hc hcount]
  exact hd

theorem Run.changes_iff (h : Run N s c L) (hN : 0 < N) (hn : n < L) :
    (s (n + 1)).current ≠ (s n).current ↔ ∃ d, Agreed N s c n d := by
  constructor
  · intro hne
    exact ⟨c n, h.agreed_of_ne hN hn hne⟩
  · rintro ⟨d, ha⟩
    rw [h.current_of_agreed hN hn ha]
    exact ha.ne

/-! ## Two values in order -/

section Approach

variable {P : τ → Prop} [DecidablePred P] {x y : Debounce τ} {cx cy : τ}

theorem nextCount_pos (hx : x.CountNonneg) (c : τ) : 0 < x.nextCount c := by
  rw [nextCount]
  split
  · next h =>
    have := hx c h.symm
    omega
  · omega

theorem CountNonneg.step (hx : x.CountNonneg) (N : Int) (c : τ) : (x.step N c).CountNonneg := by
  intro d hd
  by_cases hc : c = x.current
  · rw [hc, step_agree] at hd
    cases hd
  by_cases hN : N ≤ x.nextCount c
  · rw [step_commit hc hN] at hd
    cases hd
  · rw [step_wait hc (by omega)]
    exact (nextCount_pos hx c).le

/-- A proposal outside `P` leaves nothing of a heading towards `P`. -/
theorem heading_step_of_not (hx : ¬P x.current) (hc : ¬P cx) : (x.step N cx).heading P = 0 := by
  by_cases hcx : cx = x.current
  · rw [hcx, step_agree]
    exact heading_none hx rfl
  by_cases hN : N ≤ x.nextCount cx
  · rw [step_commit hcx hN]
    exact heading_none hc rfl
  · rw [step_wait hcx (by omega), heading_some (x := ⟨x.current, some cx, _⟩) hx rfl, if_neg hc]

/-- A proposal in `P` made to a value outside it. -/
theorem heading_step_of_mem (hx : ¬P x.current) (hc : P cx) :
    (x.step N cx).heading P =
      if N ≤ x.nextCount cx then ⊤ else (x.nextCount cx : WithTop Int) := by
  have hcx : cx ≠ x.current := fun h => hx (h ▸ hc)
  by_cases hN : N ≤ x.nextCount cx
  · rw [step_commit hcx hN, if_pos hN]
    exact heading_arrived hc
  · rw [step_wait hcx (by omega), heading_some (x := ⟨x.current, some cx, _⟩) hx rfl, if_pos hc,
      if_neg hN]

theorem nextCount_le (hx : ¬P x.current) (hnn : x.CountNonneg) (hc : P cx) :
    (x.nextCount cx : WithTop Int) ≤ x.heading P + 1 := by
  rw [nextCount]
  split
  · next hp =>
    rw [heading_some hx hp.symm, if_pos hc]
    exact le_of_eq (by push_cast; rfl)
  · have := heading_nonneg (P := P) hnn
    calc ((1 : Int) : WithTop Int) = 0 + 1 := by norm_num
      _ ≤ x.heading P + 1 := by gcongr

theorem le_nextCount (hx : ¬P x.current) (hr : ¬Redirected P x cx) (hc : P cx) :
    x.heading P + 1 ≤ (x.nextCount cx : WithTop Int) := by
  cases hp : x.pending with
  | none =>
    rw [heading_none hx hp, nextCount, if_neg (by rw [hp]; exact Option.some_ne_none cx)]
    norm_num
  | some d =>
    rw [heading_some hx hp]
    by_cases hd : d = cx
    · rw [if_pos (hd ▸ hc), nextCount, if_pos (by rw [hp, hd])]
      exact le_of_eq (by push_cast; rfl)
    · have hPd : ¬P d := fun hPd => hr ⟨d, hp, hPd, hc, hd⟩
      rw [if_neg hPd, nextCount, if_neg (by rw [hp]; exact fun h => hd (Option.some.inj h).symm)]
      norm_num

/-- Two values outside `P`, of which the second is no further from it, keep that
order when every proposal in `P` to the first goes with one to the second. -/
theorem heading_step_le (hx : ¬P x.current) (hy : ¬P y.current) (hnx : x.CountNonneg)
    (hny : y.CountNonneg) (hxy : x.heading P ≤ y.heading P) (hc : P cx → P cy)
    (hr : ¬Redirected P y cy) : (x.step N cx).heading P ≤ (y.step N cy).heading P := by
  by_cases hcx : P cx
  · rw [heading_step_of_mem hx hcx, heading_step_of_mem hy (hc hcx)]
    have hle : x.nextCount cx ≤ y.nextCount cy := by
      have h : (x.nextCount cx : WithTop Int) ≤ (y.nextCount cy : WithTop Int) :=
        calc (x.nextCount cx : WithTop Int) ≤ x.heading P + 1 := nextCount_le hx hnx hcx
          _ ≤ y.heading P + 1 := by gcongr
          _ ≤ y.nextCount cy := le_nextCount hy hr (hc hcx)
      exact WithTop.coe_le_coe.mp h
    by_cases hN : N ≤ x.nextCount cx
    · rw [if_pos hN, if_pos (by omega)]
    · rw [if_neg hN]
      split
      · exact le_top
      · exact WithTop.coe_le_coe.mpr hle
  · rw [heading_step_of_not hx hcx]
    exact heading_nonneg (hny.step N cy)

theorem step_current (x : Debounce τ) (N : Int) (c : τ) :
    (x.step N c).current = x.current ∨ x.step N c = ⟨c, none, 0⟩ := by
  by_cases hc : c = x.current
  · exact .inl (by rw [hc, step_agree])
  by_cases hN : N ≤ x.nextCount c
  · exact .inr (step_commit hc hN)
  · exact .inl (by rw [step_wait hc (by omega)])

/-- A step out of `P` leaves nothing of a heading towards `P`. -/
theorem heading_step_leave (hx : P x.current) (hx' : ¬P (x.step N cx).current) :
    ¬P cx ∧ (x.step N cx).heading P = 0 := by
  rcases step_current x N cx with h | h
  · rw [h] at hx'
    exact absurd hx hx'
  · rw [h] at hx' ⊢
    exact ⟨hx', heading_none hx' rfl⟩

/-- The order of two headings is kept, where `Q` is the complement of `P`.  If the
second value leaves `P` while the first is in it, then the second had the count for
it, and so had the first. -/
theorem heading_step_mono {Q : τ → Prop} [DecidablePred Q] (hQ : ∀ t, Q t ↔ ¬P t)
    (hxy : x.heading P ≤ y.heading P) (hyx : y.heading Q ≤ x.heading Q) (hnx : x.CountNonneg)
    (hny : y.CountNonneg) (hc : P cx → P cy) (hry : ¬P y.current → ¬Redirected P y cy)
    (hrx : P x.current → ¬Redirected Q x cx) :
    (x.step N cx).heading P ≤ (y.step N cy).heading P := by
  by_cases hy : P y.current
  · by_cases hy' : P (y.step N cy).current
    · rw [heading_arrived hy']
      exact le_top
    have hcy : ¬P cy := (heading_step_leave hy hy').1
    have hnn := heading_nonneg (P := P) (hny.step N cy)
    by_cases hx : P x.current
    · have hle : (y.step N cy).heading Q ≤ (x.step N cx).heading Q := by
        refine heading_step_le ?_ ?_ hny hnx hyx ?_ (hrx hx)
        · rw [hQ]; exact not_not_intro hy
        · rw [hQ]; exact not_not_intro hx
        · rw [hQ, hQ]
          exact fun _ hcx => hcy (hc hcx)
      rw [heading_arrived ((hQ _).mpr hy'), top_le_iff, heading_eq_top_iff, hQ] at hle
      rw [(heading_step_leave hx hle).2]
      exact hnn
    · rw [heading_step_of_not hx fun hcx => hcy (hc hcx)]
      exact hnn
  · have hx : ¬P x.current := by
      intro hx
      rw [heading_arrived hx, top_le_iff, heading_eq_top_iff] at hxy
      exact hy hxy
    exact heading_step_le hx hy hnx hny hxy hc (hry hy)

end Approach

section Order

variable [LinearOrder τ] {a b : Debounce τ} {ca cb : τ}

theorem Below.step (h : Below a b) (hc : ca ≤ cb) (ha : ¬Redirected (· < a.current) a ca)
    (hb : ¬Redirected (b.current < ·) b cb) : Below (a.step N ca) (b.step N cb) where
  up ℓ := by
    refine heading_step_mono (Q := (· < ℓ)) (fun _ => not_le.symm) (h.up ℓ) (h.down ℓ)
      h.nonneg.1 h.nonneg.2 (fun hℓ => le_trans hℓ hc) ?_ ?_
    · intro hcur hr
      exact hb (hr.mono fun d hd => lt_of_lt_of_le (not_le.mp hcur) hd)
    · intro hcur hr
      exact ha (hr.mono fun d hd => lt_of_lt_of_le hd hcur)
  down ℓ := by
    refine heading_step_mono (Q := (ℓ ≤ ·)) (fun _ => not_lt.symm) (h.down ℓ) (h.up ℓ)
      h.nonneg.2 h.nonneg.1 (fun hℓ => lt_of_le_of_lt hc hℓ) ?_ ?_
    · intro hcur hr
      exact ha (hr.mono fun d hd => lt_of_lt_of_le hd (not_lt.mp hcur))
    · intro hcur hr
      exact hb (hr.mono fun d hd => lt_of_lt_of_le hcur hd)
  nonneg := ⟨h.nonneg.1.step N ca, h.nonneg.2.step N cb⟩

end Order

end Debounce

end Control
