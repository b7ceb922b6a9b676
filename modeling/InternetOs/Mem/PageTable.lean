import Mathlib.Data.Set.Finite.List
import InternetOs.Mem.Vm

/-!
# The page table as a map

A page table is a trie of depth two in the physical memory (`Table`): the entries of its two upper
levels lead on to other tables, those of the lowest level are left to `lookup`, which takes the page
number `va / PGSIZE` to the physical address and the flags of a valid entry.

    walk: the entry of `va`; it adds the tables that are missing, and nothing is looked up differently   (walk_takes)
    mappages: `lookup` changes on the pages of the range, to `pa` and `perm | V`                  (mapLoop_takes)
    uvmunmap: `lookup` is gone on the pages of the range                                        (unmapLoop_ok)
-/

namespace InternetOs.Vm

open Trie Function Option
open Mem (pgsize)

/-! ## Entries -/

variable {f pa : Nat}

theorem pa2pte_or (pa : Nat) (hf : f < 1024) : pa2pte pa ||| f = pa / 4096 * 1024 + f := by
  rw [pa2pte, ← Nat.shiftLeft_add_eq_or_of_lt (i := 10) hf, Nat.shiftRight_eq_div_pow, Nat.shiftLeft_eq]

theorem pteFlags_eq (w : Nat) : pteFlags w = w % 1024 := Nat.and_two_pow_sub_one_eq_mod w 10

theorem pteFlags_entry (pa : Nat) (hf : f < 1024) : pteFlags (pa2pte pa ||| f) = f := by
  rw [pteFlags_eq, pa2pte_or pa hf]
  omega

theorem pte2pa_entry (hf : f < 1024) (hpa : pa % pgsize = 0) (hlt : pa < 2 ^ 64) :
    pte2pa (pa2pte pa ||| f) = pa := by
  rw [pte2pa, wrap, pa2pte_or pa hf]
  change pa % 4096 = 0 at hpa
  omega

theorem testBit_pteFlags {w i : Nat} (hi : i < 10) : (pteFlags w).testBit i = w.testBit i := by
  rw [pteFlags, Nat.testBit_and, show (0x3ff : Nat) = 2 ^ 10 - 1 from rfl, Nat.testBit_two_pow_sub_one]
  simp [hi]

theorem testBit_entry {i : Nat} (hf : f < 1024) (hi : i < 10) : (pa2pte pa ||| f).testBit i = f.testBit i := by
  rw [← testBit_pteFlags hi, pteFlags_entry pa hf]

theorem pteFlags_and (w : Nat) (hf : 0x3ff &&& f = f) : pteFlags w &&& f = w &&& f := by
  rw [pteFlags, Nat.and_assoc, hf]

theorem or_pteV_lt {perm : Nat} (h : perm < 1024) : perm ||| pteV < 1024 := Nat.or_lt_two_pow (n := 10) h (by decide)

theorem testBit_or_pteV (perm : Nat) : (perm ||| pteV).testBit 0 = true := by
  rw [Nat.testBit_or, show pteV.testBit 0 = true from rfl, Bool.or_true]

/-! ## Page numbers -/

/-- `PX(level, va)` of the page `v`. -/
def pxv (level v : Nat) : Fin 512 := ⟨v / 512 ^ level % 512, Nat.mod_lt _ (by decide)⟩

theorem px_eq (level va : Nat) : px level va = pxv level (va / pgsize) := by
  refine Fin.ext ?_
  change va >>> (12 + 9 * level) % 512 = va / 4096 / 512 ^ level % 512
  rw [Nat.shiftRight_eq_div_pow, Nat.div_div_eq_div_mul, pow_add, pow_mul]
  rfl

theorem pxv_inj {v v' : Nat} (hv : v < 2 ^ 27) (hv' : v' < 2 ^ 27) (h2 : pxv 2 v = pxv 2 v') (h1 : pxv 1 v = pxv 1 v')
    (h0 : pxv 0 v = pxv 0 v') : v = v' := by
  have e2 : v / 512 ^ 2 % 512 = v' / 512 ^ 2 % 512 := congrArg Fin.val h2
  have e1 : v / 512 ^ 1 % 512 = v' / 512 ^ 1 % 512 := congrArg Fin.val h1
  have e0 : v / 512 ^ 0 % 512 = v' / 512 ^ 0 % 512 := congrArg Fin.val h0
  omega

/-- The slots that lead to the lowest table for the page `v`. -/
def dirPath (v : Nat) : List (Fin 512) := [pxv 2 v, pxv 1 v]

/-! ## Tables -/

/-- The table an entry of an upper level leads to. -/
def ptr (w : Nat) : Option Nat := if w.testBit 0 then some (pte2pa w) else none

theorem ptr_none {w : Nat} (h : ptr w = none) : w.testBit 0 = false := by
  unfold ptr at h
  split_ifs at h with hb
  exact Bool.eq_false_iff.mpr hb

theorem ptr_entry {q : Nat} (hq : q % pgsize = 0) (hlt : q < 2 ^ 64) : ptr (pa2pte q ||| pteV) = some q := by
  have hv : (pa2pte q ||| pteV).testBit 0 = true := testBit_entry (by decide) (by decide)
  rw [ptr, if_pos hv, pte2pa_entry (by decide) hq hlt]

/-- The pages of a table. -/
def tables (mem : Nat → Page) (r : Nat) : Set Nat := nodes ptr 2 mem r

/-- A well-formed page table: no table page is reached in two ways, and what leads on to another
table has none of R, W and X. -/
structure Table (mem : Nat → Page) (r : Nat) : Prop where
  trie : IsTrie ptr 2 mem r
  dirs : ∀ π p i, π.length < 2 → node ptr mem r π = some p → (mem p i).testBit 0 = true →
    mem p i &&& (pteR ||| pteW ||| pteX) = 0

/-- What an entry of the lowest level says: the physical address and the flags, if it is valid. -/
def leaf (w : Nat) : Option (Nat × Nat) := if w.testBit 0 then some (pte2pa w, pteFlags w) else none

def lookup (mem : Nat → Page) (r v : Nat) : Option (Nat × Nat) :=
  (node ptr mem r (dirPath v)).bind fun p => leaf (mem p (pxv 0 v))

theorem leaf_entry {perm : Nat} (hperm : perm < 1024) (hpa : pa % pgsize = 0) (hlt : pa < 2 ^ 64) :
    leaf (pa2pte pa ||| perm ||| pteV) = some (pa, perm ||| pteV) := by
  have hf := or_pteV_lt hperm
  rw [Nat.or_assoc, leaf, if_pos, pte2pa_entry hf hpa hlt, pteFlags_entry pa hf]
  rw [testBit_entry hf (by decide), testBit_or_pteV]

theorem leaf_some {w : Nat} (h : leaf w = some (pa, f)) : w.testBit 0 = true ∧ pte2pa w = pa ∧ pteFlags w = f := by
  unfold leaf at h
  split_ifs at h with hb
  cases h
  exact ⟨hb, rfl, rfl⟩

theorem leaf_none {w : Nat} (h : leaf w = none) : w.testBit 0 = false := by
  unfold leaf at h
  split_ifs at h with hb
  exact Bool.eq_false_iff.mpr hb

section
variable {mem mem' : Nat → Page} {r p q v v' w : Nat}

theorem lookup_congr (h : ∀ p ∈ tables mem r, mem' p = mem p) (v : Nat) : lookup mem' r v = lookup mem r v := by
  rw [lookup, lookup, node_congr h (by simp [dirPath])]
  cases hp : node ptr mem r (dirPath v) with
  | none => rfl
  | some p => rw [bind_some, bind_some, h p ⟨dirPath v, by simp [dirPath], hp⟩]

theorem Table.congr (ht : Table mem r) (h : ∀ p ∈ tables mem r, mem' p = mem p) : Table mem' r where
  trie := ht.trie.congr h
  dirs := by
    intro π p i hπ hp hb
    rw [node_congr h (by omega)] at hp
    rw [h p ⟨π, by omega, hp⟩] at hb ⊢
    exact ht.dirs π p i hπ hp hb

theorem Table.upper_ne (ht : Table mem r) (hp : node ptr mem r (dirPath v) = some p) {π : List (Fin 512)}
    (hπ : π.length < 2) (hq : node ptr mem r π = some q) : q ≠ p := by
  rintro rfl
  have := ht.trie π (dirPath v) (by omega) (by simp [dirPath]) q hq hp
  rw [this] at hπ
  simp [dirPath] at hπ

theorem Table.put (ht : Table mem r) (hp : node ptr mem r (dirPath v) = some p) (i : Fin 512) (w : Nat) :
    Table (put mem p i w) r where
  trie := ht.trie.put_leaf hp rfl i w
  dirs := by
    intro π q j hπ hq hb
    rw [ht.trie.node_put_leaf hp rfl w (by omega)] at hq
    rw [put_of_ne (ht.upper_ne hp hπ hq)] at hb ⊢
    exact ht.dirs π q j hπ hq hb

theorem Table.lookup_put (ht : Table mem r) (hp : node ptr mem r (dirPath v) = some p) (hv : v < 2 ^ 27)
    (hv' : v' < 2 ^ 27) (w : Nat) :
    lookup (Trie.put mem p (pxv 0 v) w) r v' = if v' = v then leaf w else lookup mem r v' := by
  rw [lookup, ht.trie.node_put_leaf hp rfl w (by simp [dirPath])]
  split_ifs with he
  · rw [he, hp, bind_some, put_self]
  · rw [lookup]
    cases hq : node ptr mem r (dirPath v') with
    | none => rfl
    | some q =>
      rw [bind_some, bind_some]
      by_cases hqp : q = p
      · subst hqp
        -- the same lowest table, so the pages differ in the last nine bits
        have hpath := ht.trie _ _ (by simp [dirPath]) (by simp [dirPath]) q hq hp
        rw [put_of_ne_slot]
        intro h0
        injection hpath with h2 h1
        injection h1 with h1
        exact he (pxv_inj hv' hv h2 h1 h0)
      · rw [put_of_ne hqp]

end

/-! ## A new table -/

section
variable {mem : Nat → Page} {r : Nat} (hz : ∀ i, mem r i = 0)
include hz

theorem node_empty (i : Fin 512) (π : List (Fin 512)) : node ptr mem r (i :: π) = none := by
  rw [node, hz, show ptr 0 = none from if_neg (by decide), bind_none]

theorem lookup_empty (v : Nat) : lookup mem r v = none := by
  rw [lookup, dirPath, node_empty hz, bind_none]

theorem tables_empty : tables mem r = {r} := by
  ext q
  constructor
  · rintro ⟨π, -, hπ⟩
    cases π with
    | nil => exact (some.inj hπ).symm
    | cons i π =>
      rw [node_empty hz] at hπ
      cases hπ
  · rintro rfl
    exact root_mem_nodes

theorem Table.empty : Table mem r := by
  refine ⟨?_, ?_⟩
  · intro π π' _ _ p h h'
    cases π with
    | cons i π =>
      rw [node_empty hz] at h
      cases h
    | nil =>
      cases π' with
      | cons i π' =>
        rw [node_empty hz] at h'
        cases h'
      | nil => rfl
  · intro π p i _ hp hb
    cases π with
    | cons j π =>
      rw [node_empty hz] at hp
      cases hp
    | nil =>
      cases hp
      rw [hz] at hb
      cases hb

end

/-! ## The supply of pages -/

section
variable {A : PageAlloc} {va a b pa perm size : Nat} {doFree : Bool} {st : A.St}

/-- The allocator as a supply: it panics when it has no page left. -/
def source (A : PageAlloc) : Source Panic (Ram A) A.St where
  supply := Ram.st
  next st := (A.ufkalloc st).map Prod.snd
  empty := .couldNotAllocate

abbrev Takes {α : Type} (x : VmM A α) (s : Ram A) (n : Nat) (Q : α → Ram A → Prop) : Prop := Draws (source A) x s n Q

/-- The page `p` has just been given out. -/
structure Fresh (p : Nat) (s s' : Ram A) : Prop where
  pos : 0 < p
  aligned : p % pgsize = 0
  lt : p < 2 ^ 64
  fresh : p ∉ A.held s.st
  held : A.held s'.st = insert p (A.held s.st)
  keep : ∀ q, q ≠ p → s'.mem q = s.mem q

theorem ufkalloc_takes (s : Ram A) : Takes ufkalloc s 1 fun p s' => Fresh p s s' := by
  unfold Takes Draws
  simp only [drawn, source]
  cases ha : A.ufkalloc s.st with
  | none => exact ⟨s, by rw [ufkalloc, ha]⟩
  | some r =>
    obtain ⟨⟨p, w⟩, st⟩ := r
    have hp := A.alloc_page ha
    refine ⟨p, ⟨update s.mem p w, st⟩, by rw [ufkalloc, ha], rfl, ?_⟩
    exact ⟨hp.1, hp.2.1, hp.2.2, A.alloc_fresh ha, A.alloc_held ha, fun q hq => update_of_ne hq _ _⟩

section
variable {α : Type} {s : Ram A} {n : Nat} {Q : α → Ram A → Prop}

theorem Takes.load {f : Nat → VmM A α} {pte : Pte} (h : Takes (f (s.mem pte.1 pte.2)) s n Q) :
    Takes (Vm.load pte >>= f) s n Q := h

theorem Takes.store {f : Unit → VmM A α} {pte : Pte} {w : Nat}
    (h : Takes (f ()) { s with mem := Trie.put s.mem pte.1 pte.2 w } n Q) : Takes (Vm.store pte w >>= f) s n Q := h

theorem Takes.memset {f : Unit → VmM A α} {p : Nat}
    (h : Takes (f ()) { s with mem := update s.mem p fun _ => 0 } n Q) : Takes (Vm.memset p >>= f) s n Q := h

end

/-! ## How a table grows -/

/-- How many of the tables `D` are missing. -/
noncomputable def missing (mem : Nat → Page) (r : Nat) (D : Set (List (Fin 512))) : Nat :=
  Set.ncard {π | π ∈ D ∧ node ptr mem r π = none}

/-- The table has grown by the missing ones of `D`, out of pages that were not held. -/
structure Grows (r : Nat) (D : Set (List (Fin 512))) (s s' : Ram A) : Prop where
  table : Table s'.mem r
  held : A.held s.st ⊆ A.held s'.st
  mono : tables s.mem r ⊆ tables s'.mem r
  fresh : tables s'.mem r ⊆ tables s.mem r ∪ (A.held s'.st \ A.held s.st)
  keep : ∀ q ∈ A.held s.st, q ∉ tables s.mem r → s'.mem q = s.mem q
  absent : ∀ π : List (Fin 512), π.length ≤ 2 → (node ptr s'.mem r π = none ↔ node ptr s.mem r π = none ∧ π ∉ D)

variable {s s' s'' : Ram A} {r : Nat} {D D' : Set (List (Fin 512))}

theorem Grows.refl (ht : Table s.mem r) (hD : ∀ π ∈ D, node ptr s.mem r π ≠ none) : Grows r D s s where
  table := ht
  held := Set.Subset.rfl
  mono := Set.Subset.rfl
  fresh := Set.subset_union_left
  keep _ _ _ := rfl
  absent π _ := ⟨fun h => ⟨h, fun hd => hD π hd h⟩, fun h => h.1⟩

theorem Grows.trans (h : Grows r D s s') (h' : Grows r D' s' s'') : Grows r (D ∪ D') s s'' where
  table := h'.table
  held := h.held.trans h'.held
  mono := h.mono.trans h'.mono
  fresh := by
    intro q hq
    rcases h'.fresh hq with hq' | hq'
    · rcases h.fresh hq' with hq'' | hq''
      · exact .inl hq''
      · exact .inr ⟨h'.held hq''.1, hq''.2⟩
    · exact .inr ⟨hq'.1, fun hs => hq'.2 (h.held hs)⟩
  keep := by
    intro q hq hn
    have hn' : q ∉ tables s'.mem r := by
      intro hq'
      rcases h.fresh hq' with h1 | h1
      · exact hn h1
      · exact h1.2 hq
    rw [h'.keep q (h.held hq) hn', h.keep q hq hn]
  absent := by
    intro π hπ
    rw [h'.absent π hπ, h.absent π hπ, Set.mem_union, not_or, and_assoc]

theorem finite_paths (hD : ∀ π ∈ D, π.length ≤ 2) : D.Finite :=
  (List.finite_length_le (Fin 512) 2).subset hD

theorem missing_eq_zero {mem : Nat → Page} (hD : ∀ π ∈ D, node ptr mem r π ≠ none) : missing mem r D = 0 := by
  have he : {π | π ∈ D ∧ node ptr mem r π = none} = ∅ := by
    ext π
    exact ⟨fun h => hD π h.1 h.2, fun h => h.elim⟩
  rw [missing, he, Set.ncard_empty]

theorem missing_singleton {mem : Nat → Page} {π : List (Fin 512)} (h : node ptr mem r π = none) :
    missing mem r {π} = 1 := by
  have he : {π' | π' ∈ ({π} : Set (List (Fin 512))) ∧ node ptr mem r π' = none} = {π} := by
    ext π'
    exact ⟨fun h => h.1, fun h' => ⟨h', h'.symm ▸ h⟩⟩
  rw [missing, he, Set.ncard_singleton]

theorem missing_mono {mem : Nat → Page} (h : D ⊆ D') (hD' : ∀ π ∈ D', π.length ≤ 2) :
    missing mem r D ≤ missing mem r D' :=
  Set.ncard_le_ncard (fun _ hπ => ⟨h hπ.1, hπ.2⟩) ((finite_paths hD').subset fun _ h => h.1)

/-- What is missing of two sets is missing of the first, and of the second once the first is there. -/
theorem missing_union {mem mem' : Nat → Page} (h : ∀ π : List (Fin 512), π.length ≤ 2 →
      (node ptr mem' r π = none ↔ node ptr mem r π = none ∧ π ∉ D))
    (hD : ∀ π ∈ D, π.length ≤ 2) (hE : ∀ π ∈ E, π.length ≤ 2) :
    missing mem r D + missing mem' r E = missing mem r (D ∪ E) := by
  have hsplit : {π | π ∈ D ∪ E ∧ node ptr mem r π = none} =
      {π | π ∈ D ∧ node ptr mem r π = none} ∪ {π | π ∈ E ∧ node ptr mem' r π = none} := by
    ext π
    constructor
    · rintro ⟨hπ | hπ, hn⟩
      · exact .inl ⟨hπ, hn⟩
      · by_cases hd : π ∈ D
        · exact .inl ⟨hd, hn⟩
        · exact .inr ⟨hπ, (h π (hE π hπ)).mpr ⟨hn, hd⟩⟩
    · rintro (⟨hπ, hn⟩ | ⟨hπ, hn⟩)
      · exact ⟨.inl hπ, hn⟩
      · exact ⟨.inr hπ, ((h π (hE π hπ)).mp hn).1⟩
  have hdisj : Disjoint {π | π ∈ D ∧ node ptr mem r π = none} {π | π ∈ E ∧ node ptr mem' r π = none} := by
    refine Set.disjoint_left.mpr ?_
    rintro π ⟨hd, -⟩ ⟨hd', hn⟩
    exact ((h π (hE π hd')).mp hn).2 hd
  rw [missing, missing, missing, hsplit, Set.ncard_union_eq hdisj ((finite_paths hD).subset fun π h => h.1)
    ((finite_paths hE).subset fun π h => h.1)]

/-! ## `walk` -/

/-- A new table `q` is hung up in a free slot of the table at `π`. -/
def hang (mem : Nat → Page) (p : Nat) (i : Fin 512) (q : Nat) : Nat → Page :=
  Trie.put (update mem q fun _ => 0) p i (pa2pte q ||| pteV)

section
variable {s1 : Ram A} {π : List (Fin 512)} {p q : Nat} {i : Fin 512}

section
variable (hf : Fresh q s s1)
include hf

theorem Fresh.erase (hin : tables s.mem r ⊆ A.held s.st) :
    ∀ x ∈ tables s.mem r, update s1.mem q (fun _ => 0) x = s.mem x := by
  intro x hx
  have hxq : x ≠ q := by
    rintro rfl
    exact hf.fresh (hin hx)
  rw [update_of_ne hxq, hf.keep x hxq]

theorem Fresh.node_hang (ht : Table s.mem r) (hin : tables s.mem r ⊆ A.held s.st)
    (hp : node ptr s.mem r π = some p) (hπ : π.length < 2) (hfree : ptr (s.mem p i) = none) :
    IsTrie ptr 2 (hang s1.mem p i q) r ∧ tables (hang s1.mem p i q) r = insert q (tables s.mem r) ∧
      ∀ π', π'.length ≤ 2 →
        node ptr (hang s1.mem p i q) r π' = if π' = π ++ [i] then some q else node ptr s.mem r π' := by
  have herase := hf.erase hin
  have ht' := ht.trie.congr herase
  have hp' : node ptr (update s1.mem q fun _ => 0) r π = some p := by
    rw [node_congr herase (by omega), hp]
  have hq : q ∉ nodes ptr 2 (update s1.mem q fun _ => 0) r := by
    rw [nodes_congr herase]
    exact fun h => hf.fresh (hin h)
  have hfree' : ptr (update s1.mem q (fun _ => 0) p i) = none := by
    rw [herase p ⟨π, by omega, hp⟩, hfree]
  have hnil : ∀ j, ptr (update s1.mem q (fun _ => 0) q j) = none := by
    intro j
    rw [update_self]
    rfl
  have hw := ptr_entry hf.aligned hf.lt
  refine ⟨ht'.attach hp' hπ hfree' hw hq hnil, ?_, ?_⟩
  · exact (ht'.nodes_attach hp' hπ hfree' hw hq hnil).trans (by rw [nodes_congr herase]; rfl)
  · intro π' hπ'
    rw [hang, ht'.node_attach hp' hπ hfree' hw hq hnil hπ', node_congr herase (by omega)]

theorem Fresh.hang_of_ne {x : Nat} (hxp : x ≠ p) (hxq : x ≠ q) : hang s1.mem p i q x = s.mem x := by
  rw [hang, put_of_ne hxp, update_of_ne hxq, hf.keep x hxq]

theorem Fresh.table_hang (ht : Table s.mem r) (hin : tables s.mem r ⊆ A.held s.st)
    (hp : node ptr s.mem r π = some p) (hπ : π.length < 2) (hfree : ptr (s.mem p i) = none) :
    Table (hang s1.mem p i q) r := by
  obtain ⟨htrie, -, hnode⟩ := hf.node_hang ht hin hp hπ hfree
  have hpq : p ≠ q := by
    rintro rfl
    exact hf.fresh (hin ⟨π, by omega, hp⟩)
  refine ⟨htrie, fun π' x j hπ' hx hb => ?_⟩
  rw [hnode π' (by omega)] at hx
  split_ifs at hx with he
  · -- the new table is empty
    cases hx
    rw [hang, put_of_ne hpq.symm, update_self] at hb
    cases hb
  · by_cases hxp : x = p
    · subst hxp
      by_cases hji : j = i
      · subst hji
        rw [hang, put_self, ← pteFlags_and _ (by decide), pteFlags_entry q (by decide)]
        rfl
      · rw [hang, put_of_ne_slot hji, update_of_ne hpq, hf.keep x hpq] at hb ⊢
        exact ht.dirs π' x j hπ' hx hb
    · have hxq : x ≠ q := by
        rintro rfl
        exact hf.fresh (hin ⟨π', by omega, hx⟩)
      rw [hf.hang_of_ne hxp hxq] at hb ⊢
      exact ht.dirs π' x j hπ' hx hb

theorem Fresh.grows (ht : Table s.mem r) (hin : tables s.mem r ⊆ A.held s.st)
    (hp : node ptr s.mem r π = some p) (hπ : π.length < 2) (hfree : ptr (s.mem p i) = none) :
    Grows r {π ++ [i]} s ⟨hang s1.mem p i q, s1.st⟩ := by
  obtain ⟨-, htab, hnode⟩ := hf.node_hang ht hin hp hπ hfree
  refine ⟨hf.table_hang ht hin hp hπ hfree, ?_, ?_, ?_, ?_, ?_⟩
  · change A.held s.st ⊆ A.held s1.st
    rw [hf.held]
    exact Set.subset_insert _ _
  · change tables s.mem r ⊆ tables (hang s1.mem p i q) r
    rw [htab]
    exact Set.subset_insert _ _
  · change tables (hang s1.mem p i q) r ⊆ tables s.mem r ∪ (A.held s1.st \ A.held s.st)
    rw [htab, hf.held]
    rintro x (rfl | hx)
    · exact .inr ⟨.inl rfl, hf.fresh⟩
    · exact .inl hx
  · intro x hx hn
    refine hf.hang_of_ne ?_ ?_
    · rintro rfl
      exact hn ⟨π, by omega, hp⟩
    · rintro rfl
      exact hf.fresh hx
  · intro π' hπ'
    change node ptr (hang s1.mem p i q) r π' = none ↔ _
    rw [hnode π' hπ']
    split_ifs with he <;> simp [he]

theorem Fresh.lookup_hang (ht : Table s.mem r) (hin : tables s.mem r ⊆ A.held s.st)
    (hp : node ptr s.mem r π = some p) (hπ : π.length < 2) (hfree : ptr (s.mem p i) = none) (v : Nat) :
    lookup (hang s1.mem p i q) r v = lookup s.mem r v := by
  obtain ⟨-, -, hnode⟩ := hf.node_hang ht hin hp hπ hfree
  have hpq : p ≠ q := by
    rintro rfl
    exact hf.fresh (hin ⟨π, by omega, hp⟩)
  rw [lookup, hnode (dirPath v) (by simp [dirPath])]
  split_ifs with he
  · have hold : node ptr s.mem r (dirPath v) = none := by
      rw [he, node_snoc, hp, bind_some, hfree]
    rw [lookup, hold, bind_some, hang, put_of_ne hpq.symm, update_self]
    rfl
  · rw [lookup]
    cases hx : node ptr s.mem r (dirPath v) with
    | none => rfl
    | some x =>
      have hxp : x ≠ p := (ht.upper_ne hx hπ hp).symm
      have hxq : x ≠ q := by
        rintro rfl
        exact hf.fresh (hin ⟨dirPath v, by simp [dirPath], hx⟩)
      rw [bind_some, bind_some, hf.hang_of_ne hxp hxq]

end

end

/-- A growth that draws nothing but tables. -/
structure Adds (r : Nat) (D : Set (List (Fin 512))) (s s' : Ram A) : Prop where
  grows : Grows r D s s'
  drawn : A.held s'.st ⊆ A.held s.st ∪ tables s'.mem r

theorem Adds.refl (ht : Table s.mem r) (hD : ∀ π ∈ D, node ptr s.mem r π ≠ none) : Adds r D s s :=
  ⟨.refl ht hD, Set.subset_union_left⟩

theorem Adds.trans (h : Adds r D s s') (h' : Adds r D' s' s'') : Adds r (D ∪ D') s s'' where
  grows := h.grows.trans h'.grows
  drawn := by
    intro q hq
    rcases h'.drawn hq with hq' | hq'
    · rcases h.drawn hq' with hq'' | hq''
      · exact .inl hq''
      · exact .inr (h'.grows.mono hq'')
    · exact .inr hq'

/-- An entry of the lowest level may be written on the way. -/
theorem Adds.put (h : Adds r D s s') {v p : Nat} (hp : node ptr s'.mem r (dirPath v) = some p) (i : Fin 512) (w : Nat) :
    Adds r D s { s' with mem := Trie.put s'.mem p i w } := by
  have htab : tables (Trie.put s'.mem p i w) r = tables s'.mem r := h.grows.table.trie.nodes_put_leaf hp rfl i w
  refine ⟨⟨h.grows.table.put hp i w, h.grows.held, ?_, ?_, ?_, ?_⟩, ?_⟩
  · exact h.grows.mono.trans htab.ge
  · exact htab.le.trans h.grows.fresh
  · intro q hq hn
    have hqp : q ≠ p := by
      rintro rfl
      rcases h.grows.fresh ⟨dirPath v, Nat.le_refl 2, hp⟩ with h1 | h1
      · exact hn h1
      · exact h1.2 hq
    have hput : Trie.put s'.mem p i w q = s'.mem q := put_of_ne hqp i w
    exact hput.trans (h.grows.keep q hq hn)
  · intro π hπ
    rw [← h.grows.absent π hπ]
    exact iff_of_eq (congrArg (· = none) (h.grows.table.trie.node_put_leaf hp rfl w hπ))
  · exact h.drawn.trans (Set.union_subset_union_right _ htab.ge)

theorem Grows.in_held (h : Grows r D s s') (hin : tables s.mem r ⊆ A.held s.st) :
    tables s'.mem r ⊆ A.held s'.st := by
  intro q hq
  rcases h.fresh hq with hq' | hq'
  · exact h.held (hin hq')
  · exact hq'.1

theorem walkLevel_takes (ht : Table s.mem r) (hin : tables s.mem r ⊆ A.held s.st) {π : List (Fin 512)} {p : Nat}
    (hp : node ptr s.mem r π = some p) (hπ : π.length < 2) (va level : Nat) :
    Takes (walkLevel true va level p) s (missing s.mem r {π ++ [px level va]}) fun o s' =>
      ∃ q, o = some q ∧ node ptr s'.mem r (π ++ [px level va]) = some q ∧ Adds r {π ++ [px level va]} s s' ∧
        ∀ v, lookup s'.mem r v = lookup s.mem r v := by
  have hnext : node ptr s.mem r (π ++ [px level va]) = ptr (s.mem p (px level va)) := by
    rw [node_snoc, hp, bind_some]
  cases hw : ptr (s.mem p (px level va)) with
  | some q =>
    rw [hw] at hnext
    have hthere : ∀ π' ∈ ({π ++ [px level va]} : Set (List (Fin 512))), node ptr s.mem r π' ≠ none := by
      rintro π' rfl
      rw [hnext]
      exact some_ne_none q
    have hb : (s.mem p (px level va)).testBit 0 = true ∧ pte2pa (s.mem p (px level va)) = q := by
      unfold ptr at hw
      split_ifs at hw with hb
      exact ⟨hb, some.inj hw⟩
    rw [missing_eq_zero hthere]
    refine .load ?_
    rw [if_pos hb.1, hb.2]
    exact .pure ⟨q, rfl, hnext, .refl ht hthere, fun _ => rfl⟩
  | none =>
    rw [hw] at hnext
    rw [missing_singleton hnext]
    refine .load ?_
    rw [if_neg (by rw [ptr_none hw]; decide), if_neg (by decide)]
    refine (ufkalloc_takes s).bind (m := 0) fun q s1 hf => ?_
    rw [if_neg (Nat.pos_iff_ne_zero.mp hf.pos)]
    refine Takes.memset (Takes.store (.pure ⟨q, rfl, ?_, ⟨hf.grows ht hin hp hπ hw, ?_⟩,
      hf.lookup_hang ht hin hp hπ hw⟩))
    · exact ((hf.node_hang ht hin hp hπ hw).2.2 _ (by simp; omega)).trans (if_pos rfl)
    · change A.held s1.st ⊆ A.held s.st ∪ tables (hang s1.mem p (px level va) q) r
      rw [(hf.node_hang ht hin hp hπ hw).2.1, hf.held]
      rintro x (rfl | hx)
      · exact .inr (.inl rfl)
      · exact .inl hx

/-- The tables on the way to the page `v`. -/
def dirs (v : Nat) : Set (List (Fin 512)) := {[pxv 2 v], dirPath v}

theorem dirs_length {v : Nat} {π : List (Fin 512)} (h : π ∈ dirs v) : π.length ≤ 2 := by
  rcases h with rfl | rfl
  · exact Nat.le_succ 1
  · exact Nat.le_refl 2

theorem walk_takes (ht : Table s.mem r) (hin : tables s.mem r ⊆ A.held s.st) (hva : va < maxva) :
    Takes (walk r va true) s (missing s.mem r (dirs (va / pgsize))) fun o s' =>
      ∃ p, o = some (p, pxv 0 (va / pgsize)) ∧ node ptr s'.mem r (dirPath (va / pgsize)) = some p ∧
        Adds r (dirs (va / pgsize)) s s' ∧ ∀ v, lookup s'.mem r v = lookup s.mem r v := by
  have hlen : ∀ π ∈ dirs (va / pgsize), π.length ≤ 2 := fun π => dirs_length
  have hfirst : {[pxv 2 (va / pgsize)]} ⊆ dirs (va / pgsize) := Set.singleton_subset_iff.mpr (.inl rfl)
  have h2 := walkLevel_takes (π := []) ht hin rfl (by decide) va 2
  rw [px_eq] at h2
  unfold walk
  rw [if_neg (not_le.mpr hva)]
  refine h2.bind_sub (missing_mono hfirst hlen) fun o s1 hs1 => ?_
  obtain ⟨p, rfl, hp, hadd, hlook⟩ := hs1
  have h1 := walkLevel_takes hadd.grows.table (hadd.grows.in_held hin) hp (Nat.lt_succ_self 1) va 1
  rw [px_eq] at h1
  have htotal := missing_union (E := {dirPath (va / pgsize)}) hadd.grows.absent
    (fun π hπ => hlen π (hfirst hπ)) fun π hπ => hlen π (.inr hπ)
  refine (h1.bind (m := 0) fun o s2 hs2 => ?_).congr (Nat.eq_sub_of_add_eq' htotal)
  obtain ⟨q, rfl, hq, hadd', hlook'⟩ := hs2
  rw [px_eq]
  exact .pure ⟨q, rfl, hq, hadd.trans hadd', fun v => (hlook' v).trans (hlook v)⟩

theorem walkLevel_found (va level p : Nat) (s : Ram A) :
    walkLevel false va level p s = .ok (ptr (s.mem p (px level va))) s := by
  change (if (s.mem p (px level va)).testBit 0 then pure (some (pte2pa (s.mem p (px level va)))) else pure none :
    VmM A (Option Nat)) s = _
  unfold ptr
  split_ifs <;> rfl

theorem walk_found (hva : va < maxva) (r : Nat) (s : Ram A) :
    walk r va false s = .ok ((node ptr s.mem r (dirPath (va / pgsize))).map fun p => (p, pxv 0 (va / pgsize))) s := by
  have hnode : node ptr s.mem r (dirPath (va / pgsize)) =
      (ptr (s.mem r (px 2 va))).bind fun p => ptr (s.mem p (px 1 va)) := by
    rw [px_eq, px_eq, dirPath, node]
    cases ptr (s.mem r (pxv 2 (va / pgsize))) with
    | none => rfl
    | some p =>
      rw [bind_some, bind_some, node]
      cases ptr (s.mem p (pxv 1 (va / pgsize))) <;> rfl
  unfold walk
  rw [if_neg (not_le.mpr hva), bind_of_ok (walkLevel_found va 2 r s), hnode]
  cases ptr (s.mem r (px 2 va)) with
  | none => rfl
  | some p =>
    simp only [bind_some]
    rw [bind_of_ok (walkLevel_found va 1 p s), ← px_eq]
    cases ptr (s.mem p (px 1 va)) <;> rfl

/-! ## `mappages` -/

theorem page_div (v : Nat) : v * pgsize / pgsize = v := Nat.mul_div_cancel v (by decide)

theorem page_lt_maxva {v : Nat} (hv : v < 2 ^ 26) : v * pgsize < maxva := by
  change v * 4096 < 2 ^ 38
  omega

theorem wrap_of_lt {x : Nat} (h : x < 2 ^ 64) : wrap x = x := Nat.mod_eq_of_lt h

theorem next_page {v : Nat} (hv : v < 2 ^ 26) : wrap (v * pgsize + pgsize) = (v + 1) * pgsize := by
  change wrap (v * 4096 + 4096) = (v + 1) * 4096
  rw [wrap_of_lt (by omega)]
  omega

/-- The tables on the way to the pages from `a` on and before `b`. -/
def dirsIn (a b : Nat) : Set (List (Fin 512)) := {π | ∃ v, a ≤ v ∧ v < b ∧ π ∈ dirs v}

theorem dirsIn_length {π : List (Fin 512)} (h : π ∈ dirsIn a b) : π.length ≤ 2 := by
  obtain ⟨v, -, -, hv⟩ := h
  exact dirs_length hv

theorem dirsIn_succ_self (a : Nat) : dirsIn a (a + 1) = dirs a := by
  ext π
  constructor
  · rintro ⟨v, h1, h2, hv⟩
    obtain rfl : v = a := by omega
    exact hv
  · exact fun h => ⟨a, Nat.le_refl a, Nat.lt_succ_self a, h⟩

theorem dirsIn_union {c : Nat} (hab : a ≤ b) (hbc : b ≤ c) : dirsIn a c = dirsIn a b ∪ dirsIn b c := by
  ext π
  constructor
  · rintro ⟨v, h1, h2, hv⟩
    rcases Nat.lt_or_ge v b with h | h
    · exact .inl ⟨v, h1, h, hv⟩
    · exact .inr ⟨v, h, h2, hv⟩
  · rintro (⟨v, h1, h2, hv⟩ | ⟨v, h1, h2, hv⟩)
    · exact ⟨v, h1, lt_of_lt_of_le h2 hbc, hv⟩
    · exact ⟨v, le_trans hab h1, h2, hv⟩

theorem dirsIn_succ (h : a < b) : dirsIn a b = dirs a ∪ dirsIn (a + 1) b := by
  rw [dirsIn_union (Nat.le_succ a) h, dirsIn_succ_self]

/-- What mapping the pages from `v` to `v + n` at `pa` does to a table. -/
structure Maps (r v n pa perm : Nat) (s s' : Ram A) : Prop where
  adds : Adds r (dirsIn v (v + n + 1)) s s'
  lookup : ∀ x < 2 ^ 27, lookup s'.mem r x =
    if v ≤ x ∧ x ≤ v + n then some (pa + (x - v) * pgsize, perm ||| pteV) else Vm.lookup s.mem r x

theorem mapPage {v : Nat} {p : Nat} (hv : v < 2 ^ 26) (hperm : perm < 1024) (hpa : pa % pgsize = 0)
    (hlt : pa < 2 ^ 64) (hadd : Adds r (dirs v) s s') (hlook : ∀ v, lookup s'.mem r v = lookup s.mem r v)
    (hp : node ptr s'.mem r (dirPath v) = some p) :
    Maps r v 0 pa perm s { s' with mem := Trie.put s'.mem p (pxv 0 v) (pa2pte pa ||| perm ||| pteV) } where
  adds := by
    rw [dirsIn_succ_self]
    exact hadd.put hp _ _
  lookup := by
    intro x hx
    change lookup (Trie.put s'.mem p (pxv 0 v) _) r x = _
    rw [hadd.grows.table.lookup_put hp (by omega) hx, leaf_entry hperm hpa hlt, hlook]
    by_cases he : x = v
    · subst he
      rw [if_pos rfl, if_pos ⟨Nat.le_refl x, Nat.le_refl x⟩, Nat.sub_self, zero_mul, add_zero]
    · rw [if_neg he, if_neg (by omega)]

theorem Maps.step {v n : Nat} (h : Maps r v 0 pa perm s s')
    (h' : Maps r (v + 1) n (pa + pgsize) perm s' s'') : Maps r v (n + 1) pa perm s s'' where
  adds := by
    have := h.adds.trans h'.adds
    rw [dirsIn_succ_self, ← dirsIn_succ (by omega)] at this
    rw [show v + (n + 1) = v + 1 + n by omega]
    exact this
  lookup := by
    intro x hx
    rw [h'.lookup x hx, h.lookup x hx]
    by_cases h1 : v + 1 ≤ x ∧ x ≤ v + 1 + n
    · rw [if_pos h1, if_pos (by omega), show x - v = x - (v + 1) + 1 by omega, Nat.succ_mul]
      congr 2
      omega
    · rw [if_neg h1]
      by_cases h2 : v ≤ x ∧ x ≤ v + 0
      · rw [if_pos h2, if_pos (by omega)]
      · rw [if_neg h2, if_neg (by omega)]

theorem lookup_free {v p : Nat} (hp : node ptr s.mem r (dirPath v) = some p) (h : lookup s.mem r v = none) :
    (s.mem p (pxv 0 v)).testBit 0 = false := by
  rw [lookup, hp] at h
  exact leaf_none h

/-- **The loop of `mappages`**, on a range that is not mapped. -/
theorem mapLoop_takes (hperm : perm < 1024) (n : Nat) :
    ∀ (s : Ram A) (fuel v pa : Nat), n < fuel → v + n < 2 ^ 26 → Table s.mem r → tables s.mem r ⊆ A.held s.st →
      (∀ k ≤ n, lookup s.mem r (v + k) = none) → pa % pgsize = 0 → pa + n * pgsize < 2 ^ 64 →
      Takes (mapLoop r ((v + n) * pgsize) perm fuel (v * pgsize) pa) s (missing s.mem r (dirsIn v (v + n + 1)))
        fun ret s' => ret = 0 ∧ Maps r v n pa perm s s' := by
  induction n with
  | zero =>
    intro s fuel v pa hfuel hv ht hin hfree hpa hlt
    obtain ⟨fuel, rfl⟩ := Nat.exists_eq_succ_of_ne_zero (ne_of_gt hfuel)
    have hw := walk_takes ht hin (page_lt_maxva hv)
    rw [page_div] at hw
    rw [add_zero, dirsIn_succ_self]
    refine hw.bind (m := 0) fun o s1 hs1 => ?_
    obtain ⟨p, rfl, hp, hadd, hlook⟩ := hs1
    refine Takes.load ?_
    rw [if_neg (by rw [lookup_free hp ((hlook v).trans (hfree 0 (Nat.le_refl 0)))]; decide)]
    refine Takes.store ?_
    rw [if_pos rfl]
    exact .pure ⟨rfl, mapPage hv hperm hpa (by omega) hadd hlook hp⟩
  | succ n ih =>
    intro s fuel v pa hfuel hv ht hin hfree hpa hlt
    obtain ⟨fuel, rfl⟩ := Nat.exists_eq_succ_of_ne_zero (ne_of_gt (lt_of_le_of_lt (Nat.zero_le _) hfuel))
    have hw := walk_takes ht hin (page_lt_maxva (v := v) (by omega))
    rw [page_div] at hw
    have hsub : dirs v ⊆ dirsIn v (v + (n + 1) + 1) := fun π hπ => ⟨v, Nat.le_refl v, by omega, hπ⟩
    refine hw.bind_sub (missing_mono hsub fun π => dirsIn_length) fun o s1 hs1 => ?_
    obtain ⟨p, rfl, hp, hadd, hlook⟩ := hs1
    refine Takes.load ?_
    rw [if_neg (by rw [lookup_free hp ((hlook v).trans (hfree 0 (Nat.zero_le _)))]; decide)]
    refine Takes.store ?_
    have hmap := mapPage (by omega) hperm hpa (by omega) hadd hlook hp
    have hmore : v * pgsize ≠ (v + (n + 1)) * pgsize := fun h => by
      have := Nat.eq_of_mul_eq_mul_right (by decide) h
      omega
    have hlt' : pa + pgsize + n * pgsize < 2 ^ 64 := by
      rw [Nat.succ_mul] at hlt
      omega
    rw [if_neg hmore, next_page (by omega), wrap_of_lt (by omega)]
    have hfree' : ∀ k ≤ n, lookup (Trie.put s1.mem p (pxv 0 v) (pa2pte pa ||| perm ||| pteV)) r (v + 1 + k) = none := by
      intro k hk
      rw [show v + 1 + k = v + (k + 1) by omega]
      exact (hmap.lookup (v + (k + 1)) (by omega)).trans (by rw [if_neg (by omega), hfree (k + 1) (by omega)])
    have hrest := ih _ fuel (v + 1) (pa + pgsize) (by omega) (by omega) hmap.adds.grows.table
      (hmap.adds.grows.in_held hin) hfree' (by rw [Nat.add_mod_right]; exact hpa) hlt'
    have htotal := missing_union (E := dirsIn (v + 1) (v + 1 + n + 1)) hmap.adds.grows.absent
      (fun π => dirsIn_length) fun π => dirsIn_length
    rw [dirsIn_succ_self, ← dirsIn_succ (by omega)] at htotal
    rw [show v + (n + 1) = v + 1 + n by omega]
    refine (hrest.mono fun ret s2 h => ⟨h.1, hmap.step h.2⟩).congr (Nat.eq_sub_of_add_eq' htotal)

/-- How many pages of `[va, va + size)` come after its first. -/
def span (va size : Nat) : Nat := (va + size - 1) / pgsize - va / pgsize

theorem lastPage_eq (hpos : 0 < size) (hlt : va + size ≤ maxva) :
    lastPage va size = (va / pgsize + span va size) * pgsize := by
  change va + size ≤ 2 ^ 38 at hlt
  change (va + size + (2 ^ 64 - 1)) % 2 ^ 64 / 4096 * 4096 = (va / 4096 + ((va + size - 1) / 4096 - va / 4096)) * 4096
  omega

theorem span_lt (hpos : 0 < size) (hlt : va + size ≤ maxva) : va / pgsize + span va size < 2 ^ 26 := by
  change va + size ≤ 2 ^ 38 at hlt
  change va / 4096 + ((va + size - 1) / 4096 - va / 4096) < 2 ^ 26
  omega

theorem mappages_takes (hperm : perm < 1024) (hpos : 0 < size) (hlt : va + size ≤ maxva)
    (ht : Table s.mem r) (hin : tables s.mem r ⊆ A.held s.st)
    (hfree : ∀ k ≤ span va size, lookup s.mem r (va / pgsize + k) = none) (hpa : pa % pgsize = 0)
    (hpalt : pa + span va size * pgsize < 2 ^ 64) :
    Takes (mappages r va size pa perm) s (missing s.mem r (dirsIn (va / pgsize) (va / pgsize + span va size + 1)))
      fun ret s' => ret = 0 ∧ Maps r (va / pgsize) (span va size) pa perm s s' := by
  have hlast := span_lt hpos hlt
  unfold mappages
  rw [lastPage_eq hpos hlt]
  refine mapLoop_takes hperm _ s _ (va / pgsize) pa ?_ hlast ht hin hfree hpa hpalt
  exact Nat.lt_succ_of_lt (lt_of_le_of_lt (Nat.le_add_left _ _) hlast)

/-! ## `uvmunmap` -/

/-- Only entries of the lowest level have changed. -/
structure Edits (r : Nat) (mem mem' : Nat → Page) : Prop where
  table : Table mem' r
  node : ∀ π : List (Fin 512), π.length ≤ 2 → node ptr mem' r π = Trie.node ptr mem r π
  keep : ∀ q, q ∉ tables mem r → mem' q = mem q

section
variable {mem mem' mem'' : Nat → Page} {v n : Nat}

theorem Edits.tables (h : Edits r mem mem') : tables mem' r = Vm.tables mem r := by
  ext q
  exact exists_congr fun π => and_congr_right fun hπ => by rw [h.node π hπ]

theorem Edits.trans (h : Edits r mem mem') (h' : Edits r mem' mem'') : Edits r mem mem'' where
  table := h'.table
  node π hπ := (h'.node π hπ).trans (h.node π hπ)
  keep q hq := by
    rw [h'.keep q (by rwa [h.tables]), h.keep q hq]

theorem Edits.put (ht : Table mem r) {p : Nat} (hp : Trie.node ptr mem r (dirPath v) = some p) (i : Fin 512) (w : Nat) :
    Edits r mem (Trie.put mem p i w) where
  table := ht.put hp i w
  node π hπ := ht.trie.node_put_leaf hp rfl w hπ
  keep q hq := by
    refine put_of_ne ?_ i w
    rintro rfl
    exact hq ⟨dirPath v, Nat.le_refl 2, hp⟩

/-- The pages from `v` to `v + n` are gone. -/
structure Unmaps (r v n : Nat) (mem mem' : Nat → Page) : Prop where
  edits : Edits r mem mem'
  lookup : ∀ x < 2 ^ 27, lookup mem' r x = if v ≤ x ∧ x ≤ v + n then none else Vm.lookup mem r x

theorem unmapPage (ht : Table mem r) (hv : v < 2 ^ 27) {p : Nat} (hp : node ptr mem r (dirPath v) = some p) :
    Unmaps r v 0 mem (Trie.put mem p (pxv 0 v) 0) where
  edits := .put ht hp _ _
  lookup := by
    intro x hx
    rw [ht.lookup_put hp hv hx]
    by_cases he : x = v
    · rw [if_pos he, if_pos (by omega)]
      rfl
    · rw [if_neg he, if_neg (by omega)]

theorem Unmaps.step (h : Unmaps r v 0 mem mem') (h' : Unmaps r (v + 1) n mem' mem'') :
    Unmaps r v (n + 1) mem mem'' where
  edits := h.edits.trans h'.edits
  lookup := by
    intro x hx
    rw [h'.lookup x hx, h.lookup x hx]
    by_cases h1 : v + 1 ≤ x ∧ x ≤ v + 1 + n
    · rw [if_pos h1, if_pos (by omega)]
    · rw [if_neg h1]
      by_cases h2 : v ≤ x ∧ x ≤ v + 0
      · rw [if_pos h2, if_pos (by omega)]
      · rw [if_neg h2, if_neg (by omega)]

theorem lookup_found {v pa f : Nat} (h : lookup mem r v = some (pa, f)) :
    ∃ p, node ptr mem r (dirPath v) = some p ∧ (mem p (pxv 0 v)).testBit 0 = true ∧ pte2pa (mem p (pxv 0 v)) = pa ∧
      pteFlags (mem p (pxv 0 v)) = f := by
  rw [lookup, bind_eq_some_iff] at h
  obtain ⟨p, hp, hw⟩ := h
  exact ⟨p, hp, leaf_some hw⟩

end

/-- `ufkfree` for each page of a list. -/
def freeAll (A : PageAlloc) (ps : List Nat) (st : A.St) : Option A.St :=
  ps.foldlM (fun st p => A.ufkfree p st) st

theorem unmapLoop_step {v f : Nat} (fuel last : Nat) (hv : v < 2 ^ 26)
    (hm : lookup s.mem r v = some (pa, f)) (hf : f ≠ pteV)
    (hfree : (if doFree then A.ufkfree pa s.st else some s.st) = some st) :
    ∃ p, node ptr s.mem r (dirPath v) = some p ∧ unmapLoop r last doFree (fuel + 1) (v * pgsize) s =
      (if v * pgsize = last then pure () else unmapLoop r last doFree fuel (wrap (v * pgsize + pgsize)) : VmM A Unit)
        ⟨Trie.put s.mem p (pxv 0 v) 0, st⟩ := by
  obtain ⟨p, hp, hb, hpa, hfl⟩ := lookup_found hm
  refine ⟨p, hp, ?_⟩
  have hwalk := walk_found (page_lt_maxva hv) r s
  rw [page_div, hp] at hwalk
  rw [unmapLoop, bind_of_ok hwalk]
  have hload : load (p, pxv 0 v) s = .ok (s.mem p (pxv 0 v)) s := rfl
  simp only [map_some]
  rw [bind_of_ok hload, hb, hfl, hpa, if_neg hf]
  cases doFree with
  | false =>
    cases hfree
    rfl
  | true =>
    have hufk : ufkfree pa s = .ok () { s with st := st } := by
      rw [ufkfree, show A.ufkfree pa s.st = some st from hfree]
    exact bind_of_ok hufk

theorem freeAll_cons {p : Nat} {ps : List Nat} {st' : A.St} (h : freeAll A (p :: ps) st = some st') :
    ∃ st1, A.ufkfree p st = some st1 ∧ freeAll A ps st1 = some st' := by
  rw [freeAll, List.foldlM_cons, bind_eq_bind, bind_eq_some_iff] at h
  exact h

/-- The pages that `uvmunmap` frees. -/
def pagesFreed (doFree : Bool) (pg : Nat → Nat) (v n : Nat) : List Nat :=
  if doFree then (List.range' v (n + 1)).map pg else []

theorem pagesFreed_cons {pg : Nat → Nat} {v n : Nat} {st' : A.St}
    (h : freeAll A (pagesFreed doFree pg v (n + 1)) st = some st') :
    ∃ st1, (if doFree then A.ufkfree (pg v) st else some st) = some st1 ∧
      freeAll A (pagesFreed doFree pg (v + 1) n) st1 = some st' := by
  cases doFree with
  | false => exact ⟨st, rfl, h⟩
  | true =>
    exact freeAll_cons h

/-- **The loop of `uvmunmap`**, on a range that is mapped. -/
theorem unmapLoop_ok {pg fl : Nat → Nat} (n : Nat) :
    ∀ (s : Ram A) (fuel v : Nat) (st : A.St), n < fuel → v + n < 2 ^ 26 → Table s.mem r →
      (∀ x, v ≤ x → x ≤ v + n → lookup s.mem r x = some (pg x, fl x) ∧ fl x ≠ pteV) →
      freeAll A (pagesFreed doFree pg v n) s.st = some st →
      ∃ mem, unmapLoop r ((v + n) * pgsize) doFree fuel (v * pgsize) s = .ok () ⟨mem, st⟩ ∧ Unmaps r v n s.mem mem := by
  induction n with
  | zero =>
    intro s fuel v st hfuel hv ht hm hfree
    obtain ⟨fuel, rfl⟩ := Nat.exists_eq_succ_of_ne_zero (ne_of_gt hfuel)
    obtain ⟨hlook, hf⟩ := hm v (Nat.le_refl v) (Nat.le_refl v)
    have hone : (if doFree then A.ufkfree (pg v) s.st else some s.st) = some st := by
      cases doFree with
      | false => exact hfree
      | true =>
        obtain ⟨st1, h1, h2⟩ := freeAll_cons hfree
        cases h2
        exact h1
    obtain ⟨p, hp, hstep⟩ := unmapLoop_step fuel (v * pgsize) (show v < 2 ^ 26 from hv) hlook hf hone
    refine ⟨_, ?_, unmapPage ht (by omega) hp⟩
    rw [add_zero, hstep, if_pos rfl]
    rfl
  | succ n ih =>
    intro s fuel v st hfuel hv ht hm hfree
    obtain ⟨fuel, rfl⟩ := Nat.exists_eq_succ_of_ne_zero (ne_of_gt (lt_of_le_of_lt (Nat.zero_le _) hfuel))
    obtain ⟨hlook, hf⟩ := hm v (Nat.le_refl v) (by omega)
    obtain ⟨st1, hone, hrest⟩ := pagesFreed_cons hfree
    obtain ⟨p, hp, hstep⟩ := unmapLoop_step fuel ((v + (n + 1)) * pgsize) (by omega) hlook hf hone
    have hpage := unmapPage ht (by omega) hp
    have hmore : v * pgsize ≠ (v + (n + 1)) * pgsize := fun h => by
      have := Nat.eq_of_mul_eq_mul_right (by decide) h
      omega
    have hm' : ∀ x, v + 1 ≤ x → x ≤ v + 1 + n →
        lookup (Trie.put s.mem p (pxv 0 v) 0) r x = some (pg x, fl x) ∧ fl x ≠ pteV := by
      intro x h1 h2
      rw [hpage.lookup x (by omega), if_neg (by omega)]
      exact hm x (by omega) (by omega)
    obtain ⟨mem, hrun, hun⟩ := ih ⟨Trie.put s.mem p (pxv 0 v) 0, st1⟩ fuel (v + 1) st (by omega) (by omega)
      hpage.edits.table hm' hrest
    refine ⟨mem, ?_, hpage.step hun⟩
    rw [hstep, if_neg hmore, next_page (by omega), show v + (n + 1) = v + 1 + n by omega]
    exact hrun

theorem uvmunmap_ok (pg fl : Nat → Nat) (hpos : 0 < size) (hlt : va + size ≤ maxva) (ht : Table s.mem r)
    (hm : ∀ x, va / pgsize ≤ x → x ≤ va / pgsize + span va size → lookup s.mem r x = some (pg x, fl x) ∧ fl x ≠ pteV)
    (hfree : freeAll A (pagesFreed doFree pg (va / pgsize) (span va size)) s.st = some st) :
    ∃ mem, uvmunmap r va size doFree s = .ok () ⟨mem, st⟩ ∧ Unmaps r (va / pgsize) (span va size) s.mem mem := by
  have hlast := span_lt hpos hlt
  unfold uvmunmap
  rw [lastPage_eq hpos hlt]
  refine unmapLoop_ok _ s _ (va / pgsize) st ?_ hlast ht hm hfree
  exact Nat.lt_succ_of_lt (lt_of_le_of_lt (Nat.le_add_left _ _) hlast)

end

end InternetOs.Vm
