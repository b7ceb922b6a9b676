import Mathlib.Tactic

/-!
# Null-terminated chains and head/tail queues

`Chain next p l`: following `next` from `p` visits exactly the nodes `l` and then
the null pointer `0`.  `Queue next hd tl l` adds the tail pointer of a FIFO: it
must name the last node *when there is one*; an empty queue may keep any stale tail.

The operations are stated on the link function alone (`next` before, `next'`
after), so that any heap whose nodes carry a link can use them.
-/

namespace InternetOs

open List

def Chain (next : Nat → Nat) : Nat → List Nat → Prop
  | p, [] => p = 0
  | p, x :: xs => p = x ∧ x ≠ 0 ∧ Chain next (next x) xs

section
variable {next next' : Nat → Nat}

theorem Chain.congr {p : Nat} {l : List Nat} (h : Chain next p l)
    (heq : ∀ x ∈ l, next' x = next x) : Chain next' p l := by
  induction l generalizing p with
  | nil => exact h
  | cons x xs ih =>
    obtain ⟨hp, hx, hc⟩ := h
    refine ⟨hp, hx, ?_⟩
    rw [heq x mem_cons_self]
    exact ih hc fun y hy => heq y (mem_cons_of_mem x hy)

theorem Chain.unique {p : Nat} {l l' : List Nat} (h : Chain next p l) (h' : Chain next p l') : l = l' := by
  induction l generalizing p l' with
  | nil =>
    cases l' with
    | nil => rfl
    | cons y ys => exact absurd (h'.1.symm.trans h) h'.2.1
  | cons x xs ih =>
    obtain ⟨rfl, hx, hc⟩ := h
    cases l' with
    | nil => exact absurd h' hx
    | cons y ys =>
      obtain ⟨rfl, -, hc'⟩ := h'
      rw [ih hc hc']

theorem Chain.ne_zero {p : Nat} {l : List Nat} (h : Chain next p l) : ∀ x ∈ l, x ≠ 0 := by
  induction l generalizing p with
  | nil => intro x hx; cases hx
  | cons y ys ih =>
    intro x hx
    rcases mem_cons.mp hx with rfl | hx
    · exact h.2.1
    · exact ih h.2.2 x hx

theorem Chain.eq_nil {l : List Nat} (h : Chain next 0 l) : l = [] := by
  cases l with
  | nil => rfl
  | cons x xs => exact absurd h.1.symm h.2.1

/-- Linking a fresh node `m` behind the last node `t`. -/
theorem Chain.snoc {p t m : Nat} {l : List Nat} (h : Chain next p (l ++ [t])) (hm : m ≠ 0)
    (ht : next' t = m) (hm0 : next' m = 0) (hl : ∀ x ∈ l, next' x = next x) : Chain next' p (l ++ [t, m]) := by
  induction l generalizing p with
  | nil =>
    obtain ⟨hp, ht0, -⟩ := h
    exact ⟨hp, ht0, by rw [ht]; exact ⟨rfl, hm, hm0⟩⟩
  | cons x xs ih =>
    obtain ⟨hp, hx, hc⟩ := h
    refine ⟨hp, hx, ?_⟩
    rw [hl x mem_cons_self]
    exact ih hc fun y hy => hl y (mem_cons_of_mem x hy)

/-- The link of a node that is followed by `m`, or by nothing. -/
theorem Chain.link {p z : Nat} {l l' : List Nat} (h : Chain next p (l ++ z :: l')) : next z = l'.head?.getD 0 := by
  induction l generalizing p with
  | nil =>
    cases l' with
    | nil => exact h.2.2
    | cons m l' => exact h.2.2.1
  | cons x xs ih => exact ih h.2.2

/-- Unlinking `x`: the node before it, or the head, gets the link of `x`. -/
theorem Chain.remove {p x : Nat} {l l' : List Nat} (next' : Nat → Nat) (h : Chain next p (l ++ x :: l'))
    (hl : ∀ l1 y l2, l = l1 ++ y :: l2 → next' y = if l2 = [] then next x else next y)
    (hl' : ∀ y ∈ l', next' y = next y) : Chain next' (if l = [] then next x else p) (l ++ l') := by
  induction l generalizing p with
  | nil => exact h.2.2.congr hl'
  | cons y ys ih =>
    obtain ⟨hp, hy, hc⟩ := h
    refine ⟨hp, hy, ?_⟩
    rw [hl [] y ys rfl]
    exact ih hc fun l1 z l2 e => hl (y :: l1) z l2 (by rw [e]; rfl)

end

/-- The nodes from `p` on, at most `fuel` of them. -/
def follow (next : Nat → Nat) : Nat → Nat → List Nat
  | 0, _ => []
  | fuel + 1, p => if p = 0 then [] else p :: follow next fuel (next p)

theorem Chain.follow_eq {next : Nat → Nat} {p fuel : Nat} {l : List Nat} (h : Chain next p l)
    (hf : l.length ≤ fuel) : follow next fuel p = l := by
  induction l generalizing p fuel with
  | nil =>
    cases fuel with
    | zero => rfl
    | succ fuel => exact if_pos h
  | cons x l ih =>
    obtain ⟨rfl, hx, hc⟩ := h
    obtain ⟨fuel, rfl⟩ : ∃ k, fuel = k + 1 := ⟨fuel - 1, by simp at hf; omega⟩
    rw [follow, if_neg hx, ih hc (by simpa using hf)]

/-- Distinct nodes between null and `n` are fewer than `n`. -/
theorem length_lt_of_nodup {n : Nat} {l : List Nat} (hn : 0 < n) (hnd : l.Nodup)
    (h : ∀ x ∈ l, x ≠ 0 ∧ x < n) : l.length < n := by
  have hnd0 : (0 :: l).Nodup := nodup_cons.mpr ⟨fun h0 => (h 0 h0).1 rfl, hnd⟩
  have hsub : (0 :: l) ⊆ List.range n := by
    intro x hx
    rw [mem_range]
    rcases mem_cons.mp hx with rfl | hx
    · exact hn
    · exact (h x hx).2
  have hle := (List.Nodup.subperm hnd0 hsub).length_le
  rw [length_range, length_cons] at hle
  omega

/-- A FIFO with a head and a tail pointer; the tail matters only while a node is queued. -/
structure Queue (next : Nat → Nat) (hd tl : Nat) (l : List Nat) : Prop where
  chain : Chain next hd l
  nodup : l.Nodup
  tail : ∀ l0 t, l = l0 ++ [t] → tl = t

section
variable {next next' : Nat → Nat} {hd tl m : Nat} {l : List Nat}

theorem Queue.nil (tl : Nat) : Queue next 0 tl [] :=
  ⟨rfl, nodup_nil, fun l0 t h => by simp at h⟩

theorem Queue.singleton (hm : m ≠ 0) (hm0 : next m = 0) : Queue next m m [m] := by
  refine ⟨⟨rfl, hm, hm0⟩, nodup_singleton m, fun l0 t h => ?_⟩
  cases l0 with
  | nil => simpa using h
  | cons x xs => simp at h

theorem Queue.congr (h : Queue next hd tl l) (heq : ∀ x ∈ l, next' x = next x) : Queue next' hd tl l :=
  ⟨h.chain.congr heq, h.nodup, h.tail⟩

theorem Queue.pushTail (h : Queue next hd tl l) (hne : l ≠ []) (hm : m ≠ 0) (hml : m ∉ l)
    (ht : next' tl = m) (hm0 : next' m = 0) (hl : ∀ x ∈ l, x ≠ tl → next' x = next x) :
    Queue next' hd m (l ++ [m]) := by
  obtain ⟨l0, t, rfl⟩ := (eq_nil_or_concat' l).resolve_left hne
  obtain rfl : tl = t := h.tail l0 t rfl
  have htl : tl ∉ l0 := ((nodup_concat l0 tl).mp (concat_eq_append ▸ h.nodup)).1
  refine ⟨?_, ?_, fun l1 t1 h1 => ?_⟩
  · rw [append_assoc]
    exact h.chain.snoc hm ht hm0 fun x hx =>
      hl x (mem_append_left _ hx) fun e => htl (e ▸ hx)
  · exact concat_eq_append ▸ .concat hml h.nodup
  · exact (append_inj_right' h1 rfl |> List.cons.inj |>.1)

/-- Taking the first node; the tail pointer stays as it is. -/
theorem Queue.popHead (h : Queue next hd tl (m :: l)) : Queue next (next m) tl l := by
  refine ⟨h.chain.2.2, h.nodup.of_cons, fun l0 t hl => ?_⟩
  exact h.tail (m :: l0) t (by rw [hl]; rfl)

/-- Putting a node in front.  The tail pointer is not written, so it must name the node if there is no other. -/
theorem Queue.pushHead (h : Queue next hd tl l) (hm : m ≠ 0) (hml : m ∉ l) (htl : l = [] → tl = m)
    (hm' : next' m = hd) (hl : ∀ x ∈ l, next' x = next x) : Queue next' m tl (m :: l) := by
  refine ⟨⟨rfl, hm, ?_⟩, nodup_cons.mpr ⟨hml, h.nodup⟩, fun l0 t ht => ?_⟩
  · rw [hm']
    exact h.chain.congr hl
  · cases l0 with
    | nil =>
      obtain ⟨rfl, hnil⟩ := List.cons.inj ht
      exact htl hnil
    | cons x l0 => exact h.tail l0 t (List.cons.inj ht).2

/-- Putting back a node that was just taken: the tail pointer was never moved, and it
still names the last node even when the queue had become empty in between. -/
theorem Queue.popHead_pushHead (h : Queue next hd tl (m :: l)) (hm : next' m = next m)
    (hl : ∀ x ∈ l, next' x = next x) : Queue next' m tl (m :: l) :=
  h.popHead.pushHead h.chain.2.1 (nodup_cons.mp h.nodup).1 (fun hnil => h.tail [] m (by rw [hnil]; rfl)) hm hl

end

end InternetOs
