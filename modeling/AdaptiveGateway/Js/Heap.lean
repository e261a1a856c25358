/-
Values of JavaScript in a heap.

An array or an object is a node of the heap and a value refers to it, so two values may have a
node in common, and what one of them does to it the other one sees.  The values are those of
JSON.  A string is the list of its code points, there is one zero since `JSON.stringify` writes
both alike, and the properties of an object are a list too, of which no function here reads the
order.

`Reads h x v` says that `v` is the JSON value `x`.  `Owns h x v lo hi` says so too, and that its
nodes have addresses from `lo` up to `hi` and none is referred to twice: they are a tree.  What is
parsed is owned, and `InPlace` is about operations that change what they own and nothing else.

A call returns if the stack is deep enough for the calls that it makes in turn.
-/
import AdaptiveGateway.Python.Value

namespace Js

open Codec Numeric Python

/-! ## The heap -/

inductive Val where
  | null
  | bool (b : Bool)
  | num (x : Binary64)
  | str (s : Str)
  /-- The node at this address. -/
  | ref (a : Nat)

inductive Node where
  | array (items : List Val)
  | object (props : Dict Str Val)

abbrev Heap := List Node

/-! ## Calls -/

/-- With a stack that is deep enough. -/
def Returns {β : Type} (f : Nat → Option β) (b : β) : Prop :=
  ∃ n, ∀ stack, n ≤ stack → f stack = some b

section Returns

variable {α β γ : Type} {b : β} {c : γ}

theorem Returns.pure : Returns (fun _ => some b) b := ⟨0, fun _ _ => rfl⟩

theorem Returns.map {f : Nat → Option β} (h : Returns f b) (g : β → γ) :
    Returns (fun stack => (f stack).map g) (g b) := by
  obtain ⟨n, hn⟩ := h
  exact ⟨n, fun stack hstack => congrArg (Option.map g) (hn stack hstack)⟩

theorem Returns.bind {f : Nat → Option β} {g : Nat → β → Option γ} (hf : Returns f b)
    (hg : Returns (fun stack => g stack b) c) :
    Returns (fun stack => (f stack).bind (g stack)) c := by
  obtain ⟨m, hm⟩ := hf
  obtain ⟨n, hn⟩ := hg
  refine ⟨max m n, fun stack hstack => ?_⟩
  calc (f stack).bind (g stack)
      = (some b).bind (g stack) := by rw [hm stack (le_of_max_le_left hstack)]
    _ = some c := hn stack (le_of_max_le_right hstack)

/-- A call that does `f` takes one more place on the stack. -/
theorem Returns.call {f g : Nat → Option β} (h : Returns f b)
    (hg : ∀ stack, g (stack + 1) = f stack) : Returns g b := by
  obtain ⟨n, hn⟩ := h
  refine ⟨n + 1, fun stack hstack => ?_⟩
  obtain ⟨stack, rfl⟩ := Nat.exists_eq_add_of_le' hstack
  rw [← Nat.add_assoc, hg]
  exact hn _ (Nat.le_add_left n stack)

end Returns

/-! ## JSON -/

/-- The JSON value of the text that `JSON.stringify` writes.  It throws on a cycle, for which no
stack is deep enough. -/
def stringify : Nat → Heap → Val → Option Value
  | _, _, .null => some .null
  | _, _, .bool b => some (.bool b)
  | _, _, .num x => some (if x.isFinite then .float x else .null)
  | _, _, .str s => some (.str s)
  | 0, _, .ref _ => none
  | stack + 1, h, .ref a =>
    match h[a]? with
    | some (.array items) => (items.mapM fun item => stringify stack h item).map .list
    | some (.object props) =>
      (props.items.mapM fun p => (stringify stack h p.2).map fun x => (p.1, x)).map .dict
    | none => none

mutual
/-- `JSON.parse` on the text of a value.  The nodes it makes are new. -/
def parse : Value → Heap → Heap × Val
  | .null, h => (h, .null)
  | .bool b, h => (h, .bool b)
  | .int n, h => (h, .num (.ofRat n))
  | .float x, h => (h, .num x)
  | .negZero, h => (h, .num .zero)
  | .str s, h => (h, .str s)
  | .list xs, h => ((parseElems xs h).1 ++ [.array (parseElems xs h).2],
      .ref (parseElems xs h).1.length)
  | .dict ms, h => ((parseMembers ms h).1 ++ [.object (Dict.ofPairs (parseMembers ms h).2)],
      .ref (parseMembers ms h).1.length)

def parseElems : List Value → Heap → Heap × List Val
  | [], h => (h, [])
  | x :: xs, h => ((parseElems xs (parse x h).1).1,
      (parse x h).2 :: (parseElems xs (parse x h).1).2)

def parseMembers : List (Str × Value) → Heap → Heap × List (Str × Val)
  | [], h => (h, [])
  | m :: ms, h => ((parseMembers ms (parse m.2 h).1).1,
      (m.1, (parse m.2 h).2) :: (parseMembers ms (parse m.2 h).1).2)
end

/-! ## What a value holds -/

mutual
/-- The value `v` is the JSON value `x`. -/
def Reads (h : Heap) : Value → Val → Prop
  | .null, v => v = .null
  | .bool b, v => v = .bool b
  | .int _, _ => False
  | .float x, v => x.isFinite = true ∧ v = .num x
  | .negZero, _ => False
  | .str s, v => v = .str s
  | .list xs, v => ∃ a vs, v = .ref a ∧ h[a]? = some (.array vs) ∧ ReadsElems h xs vs
  | .dict ms, v => ∃ a d, v = .ref a ∧ h[a]? = some (.object d) ∧ ReadsMembers h ms d.items

def ReadsElems (h : Heap) : List Value → List Val → Prop
  | [], vs => vs = []
  | x :: xs, vs => ∃ w ws, vs = w :: ws ∧ Reads h x w ∧ ReadsElems h xs ws

def ReadsMembers (h : Heap) : List (Str × Value) → List (Str × Val) → Prop
  | [], ps => ps = []
  | m :: ms, ps => ∃ w ws, ps = (m.1, w) :: ws ∧ Reads h m.2 w ∧ ReadsMembers h ms ws
end

section Reads

variable {h h' : Heap}

theorem ReadsMembers.keys {ms : List (Str × Value)} {ps : List (Str × Val)}
    (hread : ReadsMembers h ms ps) : ms.map Prod.fst = ps.map Prod.fst := by
  induction ms generalizing ps with
  | nil =>
    cases hread
    rfl
  | cons m ms ih =>
    obtain ⟨w, ws, rfl, -, hrest⟩ := hread
    rw [List.map_cons, List.map_cons, ih hrest]

mutual
theorem Reads.keyed : ∀ {x : Value} {v : Val}, Reads h x v → x.Keyed
  | .list xs, v, hread => by
    rw [Reads] at hread
    obtain ⟨a, vs, -, -, hxs⟩ := hread
    exact ReadsElems.keyed hxs
  | .dict ms, v, hread => by
    rw [Reads] at hread
    obtain ⟨a, d, -, -, hms⟩ := hread
    exact ⟨hms.keys ▸ d.nodup, ReadsMembers.keyed hms⟩
  | .null, _, _ | .bool _, _, _ | .int _, _, _ | .float _, _, _ | .negZero, _, _
  | .str _, _, _ => trivial

theorem ReadsElems.keyed : ∀ {xs : List Value} {vs : List Val}, ReadsElems h xs vs →
    Value.KeyedElems xs
  | [], _, _ => trivial
  | x :: xs, vs, hread => by
    rw [ReadsElems] at hread
    obtain ⟨w, ws, -, hx, hxs⟩ := hread
    exact ⟨Reads.keyed hx, ReadsElems.keyed hxs⟩

theorem ReadsMembers.keyed : ∀ {ms : List (Str × Value)} {ps : List (Str × Val)},
    ReadsMembers h ms ps → Value.KeyedMembers ms
  | [], _, _ => trivial
  | m :: ms, ps, hread => by
    rw [ReadsMembers] at hread
    obtain ⟨w, ws, -, hm, hms⟩ := hread
    exact ⟨Reads.keyed hm, ReadsMembers.keyed hms⟩
end

mutual
theorem Reads.stringify : ∀ {x : Value} {v : Val}, Reads h x v →
    Returns (fun stack => Js.stringify stack h v) x
  | .null, v, hread => by
    rw [Reads] at hread
    subst hread
    exact ⟨0, fun stack _ => by cases stack <;> rfl⟩
  | .bool b, v, hread => by
    rw [Reads] at hread
    subst hread
    exact ⟨0, fun stack _ => by cases stack <;> rfl⟩
  | .int _, v, hread | .negZero, v, hread => by
    rw [Reads] at hread
    exact hread.elim
  | .float x, v, hread => by
    rw [Reads] at hread
    obtain ⟨hfinite, rfl⟩ := hread
    have hnum : ∀ stack, Js.stringify stack h (.num x) = some (.float x) := by
      intro stack
      cases stack <;> simp only [Js.stringify, if_pos hfinite]
    exact ⟨0, fun stack _ => hnum stack⟩
  | .str s, v, hread => by
    rw [Reads] at hread
    subst hread
    exact ⟨0, fun stack _ => by cases stack <;> rfl⟩
  | .list xs, v, hread => by
    rw [Reads] at hread
    obtain ⟨a, vs, rfl, hnode, hxs⟩ := hread
    refine ((ReadsElems.stringify hxs).map Value.list).call fun stack => ?_
    simp only [Js.stringify, hnode]
  | .dict ms, v, hread => by
    rw [Reads] at hread
    obtain ⟨a, d, rfl, hnode, hms⟩ := hread
    refine ((ReadsMembers.stringify hms).map Value.dict).call fun stack => ?_
    simp only [Js.stringify, hnode]

theorem ReadsElems.stringify : ∀ {xs : List Value} {vs : List Val}, ReadsElems h xs vs →
    Returns (fun stack => vs.mapM fun v => Js.stringify stack h v) xs
  | [], vs, hread => by
    rw [ReadsElems] at hread
    subst hread
    exact .pure
  | x :: xs, vs, hread => by
    rw [ReadsElems] at hread
    obtain ⟨w, ws, rfl, hx, hxs⟩ := hread
    simp only [List.mapM_cons]
    exact (Reads.stringify hx).bind ((ReadsElems.stringify hxs).bind .pure)

theorem ReadsMembers.stringify : ∀ {ms : List (Str × Value)} {ps : List (Str × Val)},
    ReadsMembers h ms ps →
      Returns (fun stack => ps.mapM fun p => (Js.stringify stack h p.2).map fun x => (p.1, x)) ms
  | [], ps, hread => by
    rw [ReadsMembers] at hread
    subst hread
    exact .pure
  | m :: ms, ps, hread => by
    rw [ReadsMembers] at hread
    obtain ⟨w, ws, rfl, hm, hms⟩ := hread
    simp only [List.mapM_cons]
    exact ((Reads.stringify hm).map fun x => (m.1, x)).bind
      ((ReadsMembers.stringify hms).bind .pure)
end

end Reads

/-! ## What a value owns -/

mutual
/-- The value `v` is the JSON value `x`, and its nodes are a tree that lies from `lo` up to `hi`:
a node comes after what it refers to, and what it refers to lies side by side. -/
def Owns (h : Heap) : Value → Val → Nat → Nat → Prop
  | .null, v, lo, hi => lo ≤ hi ∧ v = .null
  | .bool b, v, lo, hi => lo ≤ hi ∧ v = .bool b
  | .int _, _, _, _ => False
  | .float x, v, lo, hi => lo ≤ hi ∧ x.isFinite = true ∧ v = .num x
  | .negZero, _, _, _ => False
  | .str s, v, lo, hi => lo ≤ hi ∧ v = .str s
  | .list xs, v, lo, hi => ∃ a vs, v = .ref a ∧ a < hi ∧ h[a]? = some (.array vs) ∧
      OwnsElems h xs vs lo a
  | .dict ms, v, lo, hi => ∃ a d, v = .ref a ∧ a < hi ∧ h[a]? = some (.object d) ∧
      OwnsMembers h ms d.items lo a

def OwnsElems (h : Heap) : List Value → List Val → Nat → Nat → Prop
  | [], vs, lo, hi => lo ≤ hi ∧ vs = []
  | x :: xs, vs, lo, hi => ∃ w ws l m, vs = w :: ws ∧ lo ≤ l ∧ Owns h x w l m ∧
      OwnsElems h xs ws m hi

def OwnsMembers (h : Heap) : List (Str × Value) → List (Str × Val) → Nat → Nat → Prop
  | [], ps, lo, hi => lo ≤ hi ∧ ps = []
  | n :: ns, ps, lo, hi => ∃ w ws l m, ps = (n.1, w) :: ws ∧ lo ≤ l ∧ Owns h n.2 w l m ∧
      OwnsMembers h ns ws m hi
end

section Owns

variable {h h' : Heap}

mutual
theorem Owns.le : ∀ {x : Value} {v : Val} {lo hi : Nat}, Owns h x v lo hi → lo ≤ hi
  | .list xs, v, lo, hi, hown => by
    rw [Owns] at hown
    obtain ⟨a, vs, -, ha, -, hxs⟩ := hown
    exact (OwnsElems.le hxs).trans ha.le
  | .dict ms, v, lo, hi, hown => by
    rw [Owns] at hown
    obtain ⟨a, d, -, ha, -, hms⟩ := hown
    exact (OwnsMembers.le hms).trans ha.le
  | .int _, v, lo, hi, hown | .negZero, v, lo, hi, hown => by
    rw [Owns] at hown
    exact hown.elim
  | .null, v, lo, hi, hown | .bool b, v, lo, hi, hown | .float x, v, lo, hi, hown
  | .str s, v, lo, hi, hown => by
    rw [Owns] at hown
    exact hown.1

theorem OwnsElems.le : ∀ {xs : List Value} {vs : List Val} {lo hi : Nat},
    OwnsElems h xs vs lo hi → lo ≤ hi
  | [], vs, lo, hi, hown => by
    rw [OwnsElems] at hown
    exact hown.1
  | x :: xs, vs, lo, hi, hown => by
    rw [OwnsElems] at hown
    obtain ⟨w, ws, l, m, -, hl, hx, hxs⟩ := hown
    exact hl.trans ((Owns.le hx).trans (OwnsElems.le hxs))

theorem OwnsMembers.le : ∀ {ms : List (Str × Value)} {ps : List (Str × Val)} {lo hi : Nat},
    OwnsMembers h ms ps lo hi → lo ≤ hi
  | [], ps, lo, hi, hown => by
    rw [OwnsMembers] at hown
    exact hown.1
  | n :: ns, ps, lo, hi, hown => by
    rw [OwnsMembers] at hown
    obtain ⟨w, ws, l, m, -, hl, hn, hns⟩ := hown
    exact hl.trans ((Owns.le hn).trans (OwnsMembers.le hns))
end

mutual
theorem Owns.reads : ∀ {x : Value} {v : Val} {lo hi : Nat}, Owns h x v lo hi → Reads h x v
  | .list xs, v, lo, hi, hown => by
    rw [Owns] at hown
    rw [Reads]
    obtain ⟨a, vs, hv, -, hnode, hxs⟩ := hown
    exact ⟨a, vs, hv, hnode, OwnsElems.reads hxs⟩
  | .dict ms, v, lo, hi, hown => by
    rw [Owns] at hown
    rw [Reads]
    obtain ⟨a, d, hv, -, hnode, hms⟩ := hown
    exact ⟨a, d, hv, hnode, OwnsMembers.reads hms⟩
  | .int _, v, lo, hi, hown | .negZero, v, lo, hi, hown => by
    rw [Owns] at hown
    exact hown.elim
  | .null, v, lo, hi, hown | .bool b, v, lo, hi, hown | .float x, v, lo, hi, hown
  | .str s, v, lo, hi, hown => by
    rw [Owns] at hown
    rw [Reads]
    exact hown.2

theorem OwnsElems.reads : ∀ {xs : List Value} {vs : List Val} {lo hi : Nat},
    OwnsElems h xs vs lo hi → ReadsElems h xs vs
  | [], vs, lo, hi, hown => by
    rw [OwnsElems] at hown
    rw [ReadsElems]
    exact hown.2
  | x :: xs, vs, lo, hi, hown => by
    rw [OwnsElems] at hown
    rw [ReadsElems]
    obtain ⟨w, ws, l, m, hvs, -, hx, hxs⟩ := hown
    exact ⟨w, ws, hvs, Owns.reads hx, OwnsElems.reads hxs⟩

theorem OwnsMembers.reads : ∀ {ms : List (Str × Value)} {ps : List (Str × Val)} {lo hi : Nat},
    OwnsMembers h ms ps lo hi → ReadsMembers h ms ps
  | [], ps, lo, hi, hown => by
    rw [OwnsMembers] at hown
    rw [ReadsMembers]
    exact hown.2
  | n :: ns, ps, lo, hi, hown => by
    rw [OwnsMembers] at hown
    rw [ReadsMembers]
    obtain ⟨w, ws, l, m, hps, -, hn, hns⟩ := hown
    exact ⟨w, ws, hps, Owns.reads hn, OwnsMembers.reads hns⟩
end

/-- The heaps agree from `lo` up to `hi`. -/
def Agree (h h' : Heap) (lo hi : Nat) : Prop := ∀ a, lo ≤ a → a < hi → h'[a]? = h[a]?

theorem Agree.sub {lo hi l m : Nat} (hagree : Agree h h' lo hi) (hl : lo ≤ l) (hm : m ≤ hi) :
    Agree h h' l m := fun a hla ham => hagree a (hl.trans hla) (ham.trans_le hm)

mutual
/-- What lies elsewhere does not matter. -/
theorem Owns.frame : ∀ {x : Value} {v : Val} {lo hi : Nat}, Owns h x v lo hi →
    Agree h h' lo hi → Owns h' x v lo hi
  | .list xs, v, lo, hi, hown, hagree => by
    rw [Owns] at hown ⊢
    obtain ⟨a, vs, hv, ha, hnode, hxs⟩ := hown
    exact ⟨a, vs, hv, ha, (hagree a (OwnsElems.le hxs) ha).trans hnode,
      OwnsElems.frame hxs (hagree.sub le_rfl ha.le)⟩
  | .dict ms, v, lo, hi, hown, hagree => by
    rw [Owns] at hown ⊢
    obtain ⟨a, d, hv, ha, hnode, hms⟩ := hown
    exact ⟨a, d, hv, ha, (hagree a (OwnsMembers.le hms) ha).trans hnode,
      OwnsMembers.frame hms (hagree.sub le_rfl ha.le)⟩
  | .int _, v, lo, hi, hown, _ | .negZero, v, lo, hi, hown, _ => by
    rw [Owns] at hown
    exact hown.elim
  | .null, v, lo, hi, hown, _ | .bool b, v, lo, hi, hown, _ | .float x, v, lo, hi, hown, _
  | .str s, v, lo, hi, hown, _ => by
    rw [Owns] at hown ⊢
    exact hown

theorem OwnsElems.frame : ∀ {xs : List Value} {vs : List Val} {lo hi : Nat},
    OwnsElems h xs vs lo hi → Agree h h' lo hi → OwnsElems h' xs vs lo hi
  | [], vs, lo, hi, hown, _ => by
    rw [OwnsElems] at hown ⊢
    exact hown
  | x :: xs, vs, lo, hi, hown, hagree => by
    rw [OwnsElems] at hown ⊢
    obtain ⟨w, ws, l, m, hvs, hl, hx, hxs⟩ := hown
    exact ⟨w, ws, l, m, hvs, hl, Owns.frame hx (hagree.sub hl (OwnsElems.le hxs)),
      OwnsElems.frame hxs (hagree.sub (hl.trans (Owns.le hx)) le_rfl)⟩

theorem OwnsMembers.frame : ∀ {ms : List (Str × Value)} {ps : List (Str × Val)} {lo hi : Nat},
    OwnsMembers h ms ps lo hi → Agree h h' lo hi → OwnsMembers h' ms ps lo hi
  | [], ps, lo, hi, hown, _ => by
    rw [OwnsMembers] at hown ⊢
    exact hown
  | n :: ns, ps, lo, hi, hown, hagree => by
    rw [OwnsMembers] at hown ⊢
    obtain ⟨w, ws, l, m, hps, hl, hn, hns⟩ := hown
    exact ⟨w, ws, l, m, hps, hl, Owns.frame hn (hagree.sub hl (OwnsMembers.le hns)),
      OwnsMembers.frame hns (hagree.sub (hl.trans (Owns.le hn)) le_rfl)⟩
end

/-- The heap has grown. -/
theorem agree_below (hgrown : h <+: h') (lo : Nat) : Agree h h' lo h.length := by
  obtain ⟨new, rfl⟩ := hgrown
  exact fun a _ ha => List.getElem?_append_left ha

end Owns

/-! ## What is parsed -/

section Parse

variable {h₀ : Heap}

/-- The node that a new array or object gets. -/
theorem getElem?_new {h : Heap} {n : Node} : (h ++ [n])[h.length]? = some n := by
  rw [List.getElem?_append_right le_rfl, Nat.sub_self, List.getElem?_cons_zero]

mutual
/-- What is read off a heap and parsed again is a tree of new nodes. -/
theorem Reads.parse : ∀ {x : Value} {v₀ : Val}, Reads h₀ x v₀ → ∀ h : Heap,
    h <+: (Js.parse x h).1 ∧
      Owns (Js.parse x h).1 x (Js.parse x h).2 h.length (Js.parse x h).1.length
  | .null, v₀, _, h => ⟨List.prefix_rfl, le_rfl, rfl⟩
  | .bool b, v₀, _, h => ⟨List.prefix_rfl, le_rfl, rfl⟩
  | .int _, v₀, hread, h | .negZero, v₀, hread, h => by
    rw [Reads] at hread
    exact hread.elim
  | .float x, v₀, hread, h => by
    rw [Reads] at hread
    exact ⟨List.prefix_rfl, le_rfl, hread.1, rfl⟩
  | .str s, v₀, _, h => ⟨List.prefix_rfl, le_rfl, rfl⟩
  | .list xs, v₀, hread, h => by
    rw [Reads] at hread
    obtain ⟨a, vs, -, -, hxs⟩ := hread
    obtain ⟨hgrown, hown⟩ := ReadsElems.parse hxs h
    rw [Js.parse, Owns]
    refine ⟨hgrown.trans (List.prefix_append _ _), _, _, rfl, ?_, getElem?_new, ?_⟩
    · simp only [List.length_append, List.length_singleton, Nat.lt_succ_self]
    · exact hown.frame (agree_below (List.prefix_append _ _) _)
  | .dict ms, v₀, hread, h => by
    rw [Reads] at hread
    obtain ⟨a, d, -, -, hms⟩ := hread
    obtain ⟨hgrown, hown⟩ := ReadsMembers.parse hms h
    have hnodup : ((parseMembers ms h).2.map Prod.fst).Nodup := by
      rw [← hown.reads.keys, hms.keys]
      exact d.nodup
    have hitems : Dict.ofPairs (parseMembers ms h).2 = ⟨(parseMembers ms h).2, hnodup⟩ :=
      Dict.ofPairs_items ⟨_, hnodup⟩
    rw [Js.parse, Owns]
    refine ⟨hgrown.trans (List.prefix_append _ _), _, _, rfl, ?_, getElem?_new, ?_⟩
    · simp only [List.length_append, List.length_singleton, Nat.lt_succ_self]
    · rw [hitems]
      exact hown.frame (agree_below (List.prefix_append _ _) _)

theorem ReadsElems.parse : ∀ {xs : List Value} {vs₀ : List Val}, ReadsElems h₀ xs vs₀ →
    ∀ h : Heap, h <+: (parseElems xs h).1 ∧
      OwnsElems (parseElems xs h).1 xs (parseElems xs h).2 h.length (parseElems xs h).1.length
  | [], vs₀, _, h => ⟨List.prefix_rfl, le_rfl, rfl⟩
  | x :: xs, vs₀, hread, h => by
    rw [ReadsElems] at hread
    obtain ⟨w, ws, -, hx, hxs⟩ := hread
    obtain ⟨hgrown, hown⟩ := Reads.parse hx h
    obtain ⟨hgrows, howns⟩ := ReadsElems.parse hxs (Js.parse x h).1
    rw [parseElems, OwnsElems]
    exact ⟨hgrown.trans hgrows, _, _, _, _, rfl, le_rfl,
      hown.frame (agree_below hgrows _), howns⟩

theorem ReadsMembers.parse : ∀ {ms : List (Str × Value)} {ps₀ : List (Str × Val)},
    ReadsMembers h₀ ms ps₀ → ∀ h : Heap, h <+: (parseMembers ms h).1 ∧
      OwnsMembers (parseMembers ms h).1 ms (parseMembers ms h).2 h.length
        (parseMembers ms h).1.length
  | [], ps₀, _, h => ⟨List.prefix_rfl, le_rfl, rfl⟩
  | m :: ms, ps₀, hread, h => by
    rw [ReadsMembers] at hread
    obtain ⟨w, ws, -, hm, hms⟩ := hread
    obtain ⟨hgrown, hown⟩ := Reads.parse hm h
    obtain ⟨hgrows, howns⟩ := ReadsMembers.parse hms (Js.parse m.2 h).1
    rw [parseMembers, OwnsMembers]
    exact ⟨hgrown.trans hgrows, _, _, _, _, rfl, le_rfl,
      hown.frame (agree_below hgrows _), howns⟩
end

end Parse

end Js
