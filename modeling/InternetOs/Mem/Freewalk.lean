import InternetOs.Mem.PageTable

/-!
# Giving pages back

What the allocator owes to the functions that free (`PageAlloc.Exact`), and `freewalk`: on a table
with nothing mapped it frees every page of the table, once, and touches no other page.

    freewalk: held' = held \ tables                                                  (freewalk_ok)
-/

namespace InternetOs.Vm

open Trie List
open Mem (pgsize kernbase phystop)

/-- An allocator that takes back exactly what it has given out, between `KERNBASE` and `PHYSTOP`. -/
structure PageAlloc.Exact (A : PageAlloc) : Prop where
  free_ok : ∀ {p st}, p ∈ A.held st → ∃ st', A.ufkfree p st = some st'
  free_held : ∀ {p st st'}, A.ufkfree p st = some st' → A.held st' = A.held st \ {p}
  range : ∀ {p st}, p ∈ A.held st → kernbase ≤ p ∧ p + pgsize ≤ phystop ∧ p % pgsize = 0

section
variable {A : PageAlloc} (hA : A.Exact) {s : Ram A} {p d c : Nat} {mem : Nat → Page} {i : Fin 512}
include hA

theorem PageAlloc.Exact.freeAll {ps : List Nat} {st : A.St} (hnd : ps.Nodup) (hin : ∀ p ∈ ps, p ∈ A.held st) :
    ∃ st', freeAll A ps st = some st' ∧ A.held st' = A.held st \ {p | p ∈ ps} := by
  induction ps generalizing st with
  | nil => exact ⟨st, rfl, by simp⟩
  | cons p ps ih =>
    rw [nodup_cons] at hnd
    obtain ⟨st1, h1⟩ := hA.free_ok (hin p mem_cons_self)
    have hheld := hA.free_held h1
    obtain ⟨st', h2, hheld'⟩ := @ih st1 hnd.2 fun q hq => by
      rw [hheld]
      exact ⟨hin q (mem_cons_of_mem p hq), fun h => hnd.1 (Set.mem_singleton_iff.mp h ▸ hq)⟩
    refine ⟨st', ?_, ?_⟩
    · rw [Vm.freeAll, foldlM_cons, h1]
      exact h2
    · rw [hheld', hheld]
      ext q
      simp only [Set.mem_sdiff, Set.mem_singleton_iff, Set.mem_ofPred_eq, mem_cons, not_or, and_assoc]

theorem ufkfree_ok (hp : p ∈ A.held s.st) :
    ∃ st, ufkfree p s = .ok () ⟨s.mem, st⟩ ∧ A.held st = A.held s.st \ {p} := by
  obtain ⟨st, hst⟩ := hA.free_ok hp
  exact ⟨st, by rw [ufkfree, hst], hA.free_held hst⟩

/-- The tables below the slot `i` of `p`. -/
def below (mem : Nat → Page) (d p : Nat) (i : Fin 512) : Set Nat :=
  {q | ∃ c, ptr (mem p i) = some c ∧ q ∈ nodes ptr d mem c}

/-- Nothing is mapped by the tables that are `d` levels below `p`, and what is above them leads on to other tables. -/
structure Bare (mem : Nat → Page) (d p : Nat) : Prop where
  trie : IsTrie ptr d mem p
  dirs : ∀ π q i, π.length < d → node ptr mem p π = some q → (mem q i).testBit 0 = true →
    mem q i &&& (pteR ||| pteW ||| pteX) = 0
  leaves : ∀ π q i, π.length = d → node ptr mem p π = some q → (mem q i).testBit 0 = false

omit hA in
theorem Bare.child (h : Bare mem (d + 1) p) (hc : ptr (mem p i) = some c) : Bare mem d c where
  trie := h.trie.child hc
  dirs π q j hπ hq := h.dirs (i :: π) q j (Nat.succ_lt_succ hπ) (by rw [node_cons hc, hq])
  leaves π q j hπ hq := h.leaves (i :: π) q j (congrArg Nat.succ hπ) (by rw [node_cons hc, hq])

omit hA in
theorem Bare.congr {mem' : Nat → Page} (h : Bare mem d p)
    (hm : ∀ q ∈ nodes ptr d mem p, mem' q = mem q) : Bare mem' d p where
  trie := h.trie.congr hm
  dirs π q i hπ hq hb := by
    rw [node_congr hm (by omega)] at hq
    rw [hm q ⟨π, by omega, hq⟩] at hb ⊢
    exact h.dirs π q i hπ hq hb
  leaves π q i hπ hq := by
    rw [node_congr hm (by omega)] at hq
    rw [hm q ⟨π, by omega, hq⟩]
    exact h.leaves π q i hπ hq

/-- What `freewalk` does with one entry, given the call for a lower table. -/
def freeEntry (depth p : Nat) (i : Fin 512) : VmM A Unit := do
  let w ← load (p, i)
  if w.testBit 0 && w &&& (pteR ||| pteW ||| pteX) == 0 then
    freewalkTo depth (pte2pa w)
    store (p, i) 0
  else if w.testBit 0 then throw .leaf
  else return ()

omit hA in
theorem freewalkTo_eq (depth p : Nat) : (freewalkTo (depth + 1) p : VmM A Unit) = (do
    (List.finRange 512).forM (freeEntry depth p)
    ufkfree p) := rfl

omit hA in
theorem freeEntry_skip (depth : Nat) (h : (s.mem p i).testBit 0 = false) : freeEntry depth p i s = .ok () s := by
  have hload : load (p, i) s = .ok (s.mem p i) s := rfl
  rw [freeEntry, bind_of_ok hload, h]
  rfl

omit hA in
theorem freeEntry_child {s' : Ram A} {depth : Nat} (hc : ptr (s.mem p i) = some c)
    (hdir : s.mem p i &&& (pteR ||| pteW ||| pteX) = 0) (hrun : freewalkTo depth c s = .ok () s') :
    freeEntry depth p i s = .ok () { s' with mem := put s'.mem p i 0 } := by
  have hload : load (p, i) s = .ok (s.mem p i) s := rfl
  have hb : (s.mem p i).testBit 0 = true ∧ pte2pa (s.mem p i) = c := by
    unfold ptr at hc
    split_ifs at hc with hb
    exact ⟨hb, Option.some.inj hc⟩
  rw [freeEntry, bind_of_ok hload, hb.1, hdir, hb.2]
  exact bind_of_ok hrun

omit hA in
theorem below_eq (hc : ptr (mem p i) = some c) : below mem d p i = nodes ptr d mem c := by
  ext q
  constructor
  · rintro ⟨c', hc', hq⟩
    rw [hc] at hc'
    exact Option.some.inj hc' ▸ hq
  · exact fun hq => ⟨c, hc, hq⟩

omit hA in
theorem below_disjoint {q : Nat} {j : Fin 512} (hb : Bare mem (d + 1) p) (hij : i ≠ j)
    (hi : q ∈ below mem d p i) : q ∉ below mem d p j := by
  rintro ⟨c', hc', hq'⟩
  obtain ⟨c, hc, hq⟩ := hi
  exact hb.trie.children_disjoint hc hc' hij hq hq'

omit hA in
theorem below_ne {q : Nat} (hb : Bare mem (d + 1) p) (hi : q ∈ below mem d p i) : q ≠ p := by
  rintro rfl
  obtain ⟨c, hc, hq⟩ := hi
  exact hb.trie.root_notMem hc hq

omit hA in
/-- The loop over the entries `l` that are still to do: their subtries are as they were at first. -/
theorem freeEntries_ok (hb : Bare mem (d + 1) p)
    (ih : ∀ (s : Ram A) (c : Nat), Bare s.mem d c → nodes ptr d s.mem c ⊆ A.held s.st →
      ∃ s', freewalkTo (d + 1) c s = .ok () s' ∧ A.held s'.st = A.held s.st \ nodes ptr d s.mem c ∧
        ∀ q, q ∉ nodes ptr d s.mem c → s'.mem q = s.mem q) (l : List (Fin 512)) :
    ∀ s : Ram A, l.Nodup → (∀ i ∈ l, s.mem p i = mem p i) →
      (∀ i ∈ l, ∀ q ∈ below mem d p i, s.mem q = mem q ∧ q ∈ A.held s.st) →
      ∃ s', l.forM (freeEntry (d + 1) p) s = .ok () s' ∧
        A.held s'.st = A.held s.st \ {q | ∃ i ∈ l, q ∈ below mem d p i} ∧
        ∀ q, q ≠ p → (∀ i ∈ l, q ∉ below mem d p i) → s'.mem q = s.mem q := by
  induction l with
  | nil => exact fun s _ _ _ => ⟨s, rfl, by simp, fun _ _ _ => rfl⟩
  | cons i l ihl =>
    intro s hnd hentry hsub
    rw [nodup_cons] at hnd
    -- the entry `i` is handled, and the rest stays as it was at first
    obtain ⟨s1, hrun, hheld, hmem, hrest⟩ : ∃ s1, freeEntry (d + 1) p i s = .ok () s1 ∧
        A.held s1.st = A.held s.st \ below mem d p i ∧
        (∀ q, q ≠ p → q ∉ below mem d p i → s1.mem q = s.mem q) ∧ ∀ j, j ≠ i → s1.mem p j = s.mem p j := by
      have hi := hentry i mem_cons_self
      cases hc : ptr (mem p i) with
      | none =>
        have hno : below mem d p i = ∅ := by
          refine Set.eq_empty_of_forall_notMem ?_
          rintro q ⟨c, hc', -⟩
          rw [hc] at hc'
          cases hc'
        refine ⟨s, freeEntry_skip _ (by rw [hi, ptr_none hc]), ?_, fun _ _ _ => rfl, fun _ _ => rfl⟩
        rw [hno, Set.sdiff_empty]
      | some c =>
        have hsame : ∀ q ∈ nodes ptr d mem c, s.mem q = mem q := fun q hq =>
          (hsub i mem_cons_self q ⟨c, hc, hq⟩).1
        have hnodes : nodes ptr d s.mem c = nodes ptr d mem c := nodes_congr hsame
        obtain ⟨s', hrun, hheld, hmem⟩ := ih s c ((hb.child hc).congr hsame) (by
          rw [hnodes]
          exact fun q hq => (hsub i mem_cons_self q ⟨c, hc, hq⟩).2)
        rw [hnodes] at hheld hmem
        have hdir : s.mem p i &&& (pteR ||| pteW ||| pteX) = 0 := by
          rw [hi]
          refine hb.dirs [] p i (Nat.succ_pos d) rfl ?_
          unfold ptr at hc
          split_ifs at hc with hv
          exact hv
        refine ⟨_, freeEntry_child (by rw [hi, hc]) hdir hrun, ?_, ?_, ?_⟩
        · rw [below_eq hc]
          exact hheld
        · intro q hqp hq
          rw [below_eq hc] at hq
          exact (put_of_ne hqp i 0).trans (hmem q hq)
        · intro j hj
          exact (put_of_ne_slot hj 0).trans (congrFun (hmem p (hb.trie.root_notMem hc)) j)
    obtain ⟨s2, hrun2, hheld2, hmem2⟩ := ihl s1 hnd.2
      (fun j hj => (hrest j fun h => hnd.1 (h ▸ hj)).trans (hentry j (mem_cons_of_mem i hj)))
      (fun j hj q hq => by
        have hqi : q ∉ below mem d p i := below_disjoint hb (fun h => hnd.1 (h ▸ hj)) hq
        obtain ⟨h1, h2⟩ := hsub j (mem_cons_of_mem i hj) q hq
        rw [hheld]
        exact ⟨(hmem q (below_ne hb hq) hqi).trans h1, h2, hqi⟩)
    refine ⟨s2, ?_, ?_, ?_⟩
    · exact (bind_of_ok hrun).trans hrun2
    · rw [hheld2, hheld]
      ext q
      simp only [Set.mem_sdiff, Set.mem_ofPred_eq, mem_cons, exists_eq_or_imp, not_or, and_assoc]
    · intro q hqp hq
      rw [hmem2 q hqp fun j hj => hq j (mem_cons_of_mem i hj), hmem q hqp (hq i mem_cons_self)]

theorem freewalkTo_ok (d : Nat) : ∀ (s : Ram A) (p : Nat), Bare s.mem d p → nodes ptr d s.mem p ⊆ A.held s.st →
    ∃ s', freewalkTo (d + 1) p s = .ok () s' ∧ A.held s'.st = A.held s.st \ nodes ptr d s.mem p ∧
      ∀ q, q ∉ nodes ptr d s.mem p → s'.mem q = s.mem q := by
  induction d with
  | zero =>
    intro s p hb hin
    have hskip : ∀ l : List (Fin 512), l.forM (freeEntry 0 p) s = .ok () s := by
      intro l
      induction l with
      | nil => rfl
      | cons i l ihl => exact (bind_of_ok (freeEntry_skip 0 (hb.leaves [] p i rfl rfl))).trans ihl
    have hnodes : nodes ptr 0 s.mem p = {p} := by
      ext q
      constructor
      · rintro ⟨π, hπ, hq⟩
        obtain rfl := eq_nil_of_length_eq_zero (Nat.le_zero.mp hπ)
        exact (Option.some.inj hq).symm
      · rintro rfl
        exact root_mem_nodes
    obtain ⟨st, hfree, hheld⟩ := ufkfree_ok hA (hin root_mem_nodes)
    refine ⟨⟨s.mem, st⟩, ?_, by rw [hnodes]; exact hheld, fun _ _ => rfl⟩
    rw [freewalkTo_eq, bind_of_ok (hskip _), hfree]
  | succ d ih =>
    intro s p hb hin
    have hbelow : ∀ i, ∀ q ∈ below s.mem d p i, q ∈ nodes ptr (d + 1) s.mem p := by
      rintro i q ⟨c, hc, hq⟩
      exact mem_nodes_succ.mpr (.inr ⟨i, c, hc, hq⟩)
    obtain ⟨s1, hrun, hheld, hmem⟩ := freeEntries_ok hb ih (List.finRange 512) s (nodup_finRange 512)
      (fun _ _ => rfl) fun i _ q hq => ⟨rfl, hin (hbelow i q hq)⟩
    have hp : p ∈ A.held s1.st := by
      rw [hheld]
      refine ⟨hin root_mem_nodes, ?_⟩
      rintro ⟨i, -, hi⟩
      exact below_ne hb hi rfl
    obtain ⟨st, hfree, hheld'⟩ := ufkfree_ok hA hp
    refine ⟨⟨s1.mem, st⟩, ?_, ?_, ?_⟩
    · rw [freewalkTo_eq, bind_of_ok hrun, hfree]
    · rw [hheld', hheld]
      ext q
      simp only [Set.mem_sdiff, mem_nodes_succ, not_or, and_assoc]
      refine and_congr_right fun _ => ?_
      rw [and_comm]
      refine and_congr_right fun _ => not_congr ⟨?_, ?_⟩
      · rintro ⟨i, -, c, hc⟩
        exact ⟨i, c, hc⟩
      · rintro ⟨i, c, hc⟩
        exact ⟨i, mem_finRange i, c, hc⟩
    · intro q hq
      exact hmem q (fun h => hq (h ▸ root_mem_nodes)) fun i _ h => hq (hbelow i q h)

/-- **`freewalk`** on a table with nothing mapped. -/
theorem freewalk_ok {r : Nat} (ht : Table s.mem r) (hin : tables s.mem r ⊆ A.held s.st)
    (hnone : ∀ v < 2 ^ 27, lookup s.mem r v = none) :
    ∃ s', freewalk r s = .ok () s' ∧ A.held s'.st = A.held s.st \ tables s.mem r ∧
      ∀ q, q ∉ tables s.mem r → s'.mem q = s.mem q := by
  refine freewalkTo_ok hA 2 s r ⟨ht.trie, ht.dirs, fun π q i hπ hq => ?_⟩ hin
  -- an entry of a lowest table is the entry of some page
  obtain ⟨a, b, rfl⟩ := length_eq_two.mp hπ
  have hv : a.val * 512 ^ 2 + b.val * 512 + i.val < 2 ^ 27 := by omega
  have hpath : dirPath (a.val * 512 ^ 2 + b.val * 512 + i.val) = [a, b] := by
    have h2 : pxv 2 (a.val * 512 ^ 2 + b.val * 512 + i.val) = a := Fin.ext (by
      change (a.val * 512 ^ 2 + b.val * 512 + i.val) / 512 ^ 2 % 512 = a.val
      omega)
    have h1 : pxv 1 (a.val * 512 ^ 2 + b.val * 512 + i.val) = b := Fin.ext (by
      change (a.val * 512 ^ 2 + b.val * 512 + i.val) / 512 ^ 1 % 512 = b.val
      omega)
    rw [dirPath, h2, h1]
  have hslot : pxv 0 (a.val * 512 ^ 2 + b.val * 512 + i.val) = i := Fin.ext (by
    change (a.val * 512 ^ 2 + b.val * 512 + i.val) / 512 ^ 0 % 512 = i.val
    omega)
  have hl := hnone _ hv
  rw [lookup, hpath, hq, hslot] at hl
  exact leaf_none hl

end

end InternetOs.Vm
