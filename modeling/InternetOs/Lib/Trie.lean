import Mathlib.Tactic

/-!
# Tries in a memory

The nodes of a trie are addresses; each has a word for every slot, and `ptr` tells which words
lead on to another node.  `node mem r π` follows the slots `π` from the root `r`.  In a trie of
depth `d` no node is reached in two ways.  The slots of the nodes at depth `d` are not followed:
what they hold is left to the user of the trie.

    a store in the slot `i` of the node at `π` changes no path but those through `π ++ [i]`   (IsTrie.node_put)
    a store that hangs up a new, empty node keeps the trie                               (IsTrie.attach)
-/

namespace InternetOs.Trie

open List Option

section
variable {W I : Type} {ptr : W → Option Nat} {mem mem' : Nat → I → W} {r p q : Nat} {i : I}
  {d : Nat} {π π' : List I}

def node (ptr : W → Option Nat) (mem : Nat → I → W) (r : Nat) : List I → Option Nat
  | [] => some r
  | i :: π => (ptr (mem r i)).bind fun p => node ptr mem p π

def put [DecidableEq I] (mem : Nat → I → W) (p : Nat) (i : I) (w : W) : Nat → I → W :=
  Function.update mem p (Function.update (mem p) i w)

/-- The nodes down to depth `d`. -/
def nodes (ptr : W → Option Nat) (d : Nat) (mem : Nat → I → W) (r : Nat) : Set Nat :=
  { p | ∃ π : List I, π.length ≤ d ∧ node ptr mem r π = some p }

def IsTrie (ptr : W → Option Nat) (d : Nat) (mem : Nat → I → W) (r : Nat) : Prop :=
  ∀ π π' : List I, π.length ≤ d → π'.length ≤ d → ∀ p, node ptr mem r π = some p → node ptr mem r π' = some p → π = π'

theorem node_snoc (mem : Nat → I → W) (r : Nat) (π : List I) (i : I) :
    node ptr mem r (π ++ [i]) = (node ptr mem r π).bind fun p => ptr (mem p i) := by
  induction π generalizing r with
  | nil =>
    rw [nil_append, node, node, bind_some]
    cases ptr (mem r i) <;> rfl
  | cons j π ih =>
    rw [cons_append, node, node, bind_assoc]
    exact congrArg _ (funext fun p => ih p)

theorem node_append (mem : Nat → I → W) (r : Nat) (π π' : List I) :
    node ptr mem r (π ++ π') = (node ptr mem r π).bind fun p => node ptr mem p π' := by
  induction π generalizing r with
  | nil => rfl
  | cons j π ih =>
    rw [cons_append, node, node, bind_assoc]
    exact congrArg _ (funext fun p => ih p)

theorem root_mem_nodes : r ∈ nodes ptr d mem r := ⟨[], Nat.zero_le _, rfl⟩

/-- A path depends only on the nodes it goes through. -/
theorem node_congr (h : ∀ p ∈ nodes ptr d mem r, mem' p = mem p) (hπ : π.length ≤ d + 1) :
    node ptr mem' r π = node ptr mem r π := by
  induction π using reverseRecOn with
  | nil => rfl
  | append_singleton π i ih =>
    rw [length_append, length_singleton] at hπ
    rw [node_snoc, node_snoc, ih (by omega)]
    cases hp : node ptr mem r π with
    | none => rfl
    | some p => rw [bind_some, bind_some, h p ⟨π, by omega, hp⟩]

theorem nodes_congr (h : ∀ p ∈ nodes ptr d mem r, mem' p = mem p) : nodes ptr d mem' r = nodes ptr d mem r := by
  ext p
  refine exists_congr fun π => and_congr_right fun hπ => ?_
  rw [node_congr h (Nat.le_succ_of_le hπ)]

theorem IsTrie.congr (ht : IsTrie ptr d mem r) (h : ∀ p ∈ nodes ptr d mem r, mem' p = mem p) :
    IsTrie ptr d mem' r := by
  intro π π' hπ hπ' p h1 h2
  rw [node_congr h (Nat.le_succ_of_le hπ)] at h1
  rw [node_congr h (Nat.le_succ_of_le hπ')] at h2
  exact ht π π' hπ hπ' p h1 h2

/-! ## The tries below the root -/

variable {c c' : Nat} {j : I}

theorem node_cons (hc : ptr (mem r i) = some c) (π : List I) : node ptr mem r (i :: π) = node ptr mem c π := by
  rw [node, hc, bind_some]

theorem mem_nodes_succ : q ∈ nodes ptr (d + 1) mem r ↔ q = r ∨ ∃ i c, ptr (mem r i) = some c ∧
    q ∈ nodes ptr d mem c := by
  constructor
  · rintro ⟨π, hπ, hq⟩
    cases π with
    | nil => exact .inl (some.inj hq).symm
    | cons i π =>
      rw [node, bind_eq_some_iff] at hq
      obtain ⟨c, hc, hq⟩ := hq
      exact .inr ⟨i, c, hc, π, Nat.le_of_succ_le_succ hπ, hq⟩
  · rintro (rfl | ⟨i, c, hc, π, hπ, hq⟩)
    · exact root_mem_nodes
    · exact ⟨i :: π, Nat.succ_le_succ hπ, by rw [node_cons hc, hq]⟩

section
variable (ht : IsTrie ptr (d + 1) mem r) (hc : ptr (mem r i) = some c)
include ht hc

theorem IsTrie.child : IsTrie ptr d mem c := by
  intro π π' hπ hπ' p hp hp'
  rw [← node_cons hc] at hp hp'
  exact tail_eq_of_cons_eq (ht (i :: π) (i :: π') (Nat.succ_le_succ hπ) (Nat.succ_le_succ hπ') p hp hp')

theorem IsTrie.root_notMem : r ∉ nodes ptr d mem c := by
  rintro ⟨π, hπ, hp⟩
  rw [← node_cons hc] at hp
  cases ht (i :: π) [] (Nat.succ_le_succ hπ) (Nat.zero_le _) r hp rfl

theorem IsTrie.children_disjoint
    (hc' : ptr (mem r j) = some c') (hij : i ≠ j) {p : Nat} (hp : p ∈ nodes ptr d mem c) :
    p ∉ nodes ptr d mem c' := by
  rintro ⟨π', hπ', hp'⟩
  obtain ⟨π, hπ, hp⟩ := hp
  rw [← node_cons hc] at hp
  rw [← node_cons hc'] at hp'
  exact hij (head_eq_of_cons_eq (ht (i :: π) (j :: π') (Nat.succ_le_succ hπ) (Nat.succ_le_succ hπ') p hp hp'))

end

/-! ## Stores -/

variable [DecidableEq I]

@[simp] theorem put_self (mem : Nat → I → W) (p : Nat) (i : I) (w : W) : put mem p i w p i = w := by
  simp [put]

theorem put_of_ne_slot {j : I} (h : j ≠ i) (w : W) : put mem p i w p j = mem p j := by
  simp [put, h]

theorem put_of_ne (h : q ≠ p) (i : I) (w : W) : put mem p i w q = mem q := by
  simp [put, h]

section
variable (ht : IsTrie ptr d mem r) (hp : node ptr mem r π = some p)
include ht hp

/-- A store in a slot of a node changes no path but those through the slot. -/
theorem IsTrie.node_put (hπ : π.length ≤ d) (w : W) (hπ' : π'.length ≤ d + 1) (hno : ¬ (π ++ [i]) <+: π') :
    node ptr (put mem p i w) r π' = node ptr mem r π' := by
  induction π' using reverseRecOn with
  | nil => rfl
  | append_singleton π' j ih =>
    rw [length_append, length_singleton] at hπ'
    rw [node_snoc, node_snoc, ih (by omega) fun h => hno (h.trans (prefix_append _ _))]
    cases hq : node ptr mem r π' with
    | none => rfl
    | some q =>
      rw [bind_some, bind_some]
      by_cases hqp : q = p
      · subst hqp
        -- the same node is reached in one way only, so the slot is another one
        obtain rfl := ht π' π (by omega) hπ q hq hp
        rw [put_of_ne_slot]
        rintro rfl
        exact hno (prefix_refl _)
      · rw [put_of_ne hqp]

/-- A store in a slot of a node at the lowest level changes no path. -/
theorem IsTrie.node_put_leaf (hπ : π.length = d) (w : W)
    (hπ' : π'.length ≤ d) : node ptr (put mem p i w) r π' = node ptr mem r π' := by
  refine ht.node_put hp (le_of_eq hπ) w (Nat.le_succ_of_le hπ') fun h => ?_
  have := h.length_le
  rw [length_append, length_singleton] at this
  omega

theorem IsTrie.put_leaf (hπ : π.length = d) (i : I) (w : W) : IsTrie ptr d (put mem p i w) r := by
  intro π1 π2 h1 h2 q hq1 hq2
  rw [ht.node_put_leaf hp hπ w h1] at hq1
  rw [ht.node_put_leaf hp hπ w h2] at hq2
  exact ht π1 π2 h1 h2 q hq1 hq2

theorem IsTrie.nodes_put_leaf (hπ : π.length = d) (i : I)
    (w : W) : nodes ptr d (put mem p i w) r = nodes ptr d mem r := by
  ext q
  refine exists_congr fun π' => and_congr_right fun hπ' => ?_
  rw [ht.node_put_leaf hp hπ w hπ']

end

/-! ## A new node -/

section
variable (ht : IsTrie ptr d mem r) (hp : node ptr mem r π = some p) (hπ : π.length < d) {w : W}
  (hfree : ptr (mem p i) = none) (hw : ptr w = some q) (hq : q ∉ nodes ptr d mem r) (hnil : ∀ j, ptr (mem q j) = none)
include ht hp hπ hfree hw hq hnil

/-- What hanging up an empty node `q` in a free slot of the node at `π` does to the paths. -/
theorem IsTrie.node_attach (hπ' : π'.length ≤ d) :
    node ptr (put mem p i w) r π' = if π' = π ++ [i] then some q else node ptr mem r π' := by
  have hpq : q ≠ p := by
    rintro rfl
    exact hq ⟨π, le_of_lt hπ, hp⟩
  have hsame : node ptr (put mem p i w) r π = some p := by
    rw [ht.node_put hp (le_of_lt hπ) w (by omega) fun h => ?_, hp]
    have := h.length_le
    rw [length_append, length_singleton] at this
    omega
  have hnew : node ptr (put mem p i w) r (π ++ [i]) = some q := by
    rw [node_snoc, hsame, bind_some, put_self, hw]
  by_cases hpre : (π ++ [i]) <+: π'
  · obtain ⟨π'', rfl⟩ := hpre
    cases π'' with
    | nil => rw [append_nil, if_pos rfl, hnew]
    | cons j π'' =>
      -- below the new node there is nothing, and before there was nothing either
      have hold : node ptr mem r (π ++ [i] ++ j :: π'') = none := by
        rw [node_append, node_snoc, hp, bind_some, hfree, bind_none]
      rw [if_neg (by simp), hold, node_append, hnew, bind_some, node, put_of_ne hpq, hnil, bind_none]
  · have hne : π' ≠ π ++ [i] := by
      rintro rfl
      exact hpre (prefix_refl _)
    rw [if_neg hne]
    exact ht.node_put hp (le_of_lt hπ) w (by omega) hpre

theorem IsTrie.attach : IsTrie ptr d (put mem p i w) r := by
  intro π1 π2 h1 h2 x hx1 hx2
  rw [ht.node_attach hp hπ hfree hw hq hnil h1] at hx1
  rw [ht.node_attach hp hπ hfree hw hq hnil h2] at hx2
  split_ifs at hx1 hx2 with e1 e2 e2
  · rw [e1, e2]
  · cases hx1
    exact absurd ⟨π2, h2, hx2⟩ hq
  · cases hx2
    exact absurd ⟨π1, h1, hx1⟩ hq
  · exact ht π1 π2 h1 h2 x hx1 hx2

theorem IsTrie.nodes_attach : nodes ptr d (put mem p i w) r = insert q (nodes ptr d mem r) := by
  ext x
  constructor
  · rintro ⟨π', hπ', hx⟩
    rw [ht.node_attach hp hπ hfree hw hq hnil hπ'] at hx
    split_ifs at hx
    · exact .inl (some.inj hx).symm
    · exact .inr ⟨π', hπ', hx⟩
  · rintro (rfl | ⟨π', hπ', hx⟩)
    · refine ⟨π ++ [i], ?_, ?_⟩
      · rw [length_append, length_singleton]
        omega
      · rw [ht.node_attach hp hπ hfree hw hq hnil, if_pos rfl]
        rw [length_append, length_singleton]
        omega
    · refine ⟨π', hπ', ?_⟩
      rw [ht.node_attach hp hπ hfree hw hq hnil hπ', if_neg, hx]
      rintro rfl
      rw [node_snoc, hp, bind_some, hfree] at hx
      cases hx

end

end

end InternetOs.Trie
