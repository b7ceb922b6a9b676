import InternetOs.Mem.Freewalk
import InternetOs.Mem.PageMap
import InternetOs.Proc.Process

/-!
# User address spaces

A page table `r` is the address space of `n` pages (`Space`): the pages `[0, n)` are mapped, to pages
of the allocator that are all different, above them only the trapframe and the trampoline are mapped,
and of the user pages only the guard may lack `PTE_U`.  The pages an address space owns are its tables
and its user pages (`owns`).

    uvmalloc: the space grows to the new size, by pages that were not held          (uvmalloc_takes)
    uvmdealloc: it shrinks, and the pages cut off are not held any more              (uvmdealloc_ok)
    uvmcopy: the space of a child gets the pages of its parent                       (copyLoop_takes)
    proc_freepagetable: what the space owned is not held any more, if it has a size    (procFree_ok)
-/

namespace InternetOs.Vm

open Trie Finset
open Mem (pgsize kernbase phystop)

/-- The page number of `TRAMPOLINE`. -/
def trampPage : Nat := 2 ^ 26 - 1

/-- The page number of `TRAPFRAME`. -/
def tfPage : Nat := 2 ^ 26 - 2

/-- The number of pages of a size. -/
def npages (sz : Nat) : Nat := (sz + pgsize - 1) / pgsize

/-- The physical pages that are mapped below `TRAPFRAME`. -/
def upages (mem : Nat → Page) (r : Nat) : Set Nat := {pa | ∃ v < tfPage, ∃ f, lookup mem r v = some (pa, f)}

/-- The pages of an address space, its tables included. -/
def owns (mem : Nat → Page) (r : Nat) : Set Nat := tables mem r ∪ upages mem r

section
variable {A : PageAlloc}

/-- The entry of the user page `v`. -/
structure UserLeaf (s : Ram A) (r tf : Nat) (guard : Option Nat) (v pa f : Nat) : Prop where
  held : pa ∈ A.held s.st
  apart : pa ∉ tables s.mem r
  ne_tf : pa ≠ tf
  flags : f < 1024
  valid : f.testBit 0 = true
  leaf : f &&& (pteR ||| pteW ||| pteX) ≠ 0
  user : f.testBit 4 = true ∨ guard = some v

/-- The table `r` maps `n` user pages, the trapframe `tf` and the trampoline. -/
structure Mapped (trampoline : Nat) (s : Ram A) (r tf n : Nat) (guard : Option Nat) : Prop where
  table : Table s.mem r
  held : tables s.mem r ⊆ A.held s.st
  tramp : lookup s.mem r trampPage = some (trampoline, pteR ||| pteX ||| pteV)
  trapframe : lookup s.mem r tfPage = some (tf, pteR ||| pteW ||| pteV)
  fits : n ≤ tfPage
  empty : ∀ v < 2 ^ 27, n ≤ v → v ≠ trampPage → v ≠ tfPage → lookup s.mem r v = none
  user : ∀ v < n, ∃ pa f, lookup s.mem r v = some (pa, f) ∧ UserLeaf s r tf guard v pa f
  inj : ∀ v < n, ∀ v' < n, ∀ pa f f', lookup s.mem r v = some (pa, f) → lookup s.mem r v' = some (pa, f') → v = v'
  tf_apart : tf ∉ tables s.mem r

/-- The table `r` is an address space of `n` pages, with the trapframe `tf`. -/
structure Space (trampoline : Nat) (s : Ram A) (r tf n : Nat) (guard : Option Nat) : Prop
    extends Mapped trampoline s r tf n guard where
  tf_held : tf ∈ A.held s.st

/-- The space has changed, by pages that were not held; what is held and not of it has not. -/
structure Builds (r : Nat) (D : Set (List (Fin 512))) (s s' : Ram A) : Prop where
  held : A.held s.st ⊆ A.held s'.st
  owns : owns s'.mem r = owns s.mem r ∪ (A.held s'.st \ A.held s.st)
  keep : ∀ q ∈ A.held s.st, q ∉ Vm.owns s.mem r → s'.mem q = s.mem q
  absent : ∀ π : List (Fin 512), π.length ≤ 2 → (node ptr s'.mem r π = none ↔ node ptr s.mem r π = none ∧ π ∉ D)

/-- The space has grown, and what was mapped in it is still mapped there and still the same. -/
structure Extends (r : Nat) (D : Set (List (Fin 512))) (s s' : Ram A) : Prop extends Builds r D s s' where
  data : ∀ q ∈ A.held s.st, q ∉ tables s.mem r → s'.mem q = s.mem q
  looks : ∀ v < 2 ^ 27, ∀ e, lookup s.mem r v = some e → lookup s'.mem r v = some e
  tables : ∀ q ∈ A.held s.st, q ∉ tables s.mem r → q ∉ Vm.tables s'.mem r

variable {trampoline r tf n : Nat} {guard : Option Nat} {s s' s'' : Ram A} {D D' : Set (List (Fin 512))}

theorem Builds.refl (s : Ram A) (r : Nat) : Builds r ∅ s s where
  held := Set.Subset.rfl
  owns := by rw [sdiff_self, Set.bot_eq_empty, Set.union_empty]
  keep _ _ _ := rfl
  absent π _ := ⟨fun h => ⟨h, Set.notMem_empty π⟩, fun h => h.1⟩

theorem Builds.trans (h : Builds r D s s') (h' : Builds r D' s' s'') : Builds r (D ∪ D') s s'' where
  held := h.held.trans h'.held
  owns := by
    rw [h'.owns, h.owns]
    ext q
    have h1 : q ∈ A.held s.st → q ∈ A.held s'.st := fun hq => h.held hq
    have h2 : q ∈ A.held s'.st → q ∈ A.held s''.st := fun hq => h'.held hq
    simp only [Set.mem_union, Set.mem_sdiff]
    tauto
  keep := by
    intro q hq hn
    have hn' : q ∉ Vm.owns s'.mem r := by
      rw [h.owns]
      rintro (h1 | h1)
      · exact hn h1
      · exact h1.2 hq
    rw [h'.keep q (h.held hq) hn', h.keep q hq hn]
  absent := by
    intro π hπ
    rw [h'.absent π hπ, h.absent π hπ, Set.mem_union, not_or, and_assoc]

theorem Extends.refl (s : Ram A) (r : Nat) : Extends r ∅ s s where
  toBuilds := .refl s r
  data _ _ _ := rfl
  looks _ _ _ h := h
  tables _ _ h := h

theorem Extends.trans (h : Extends r D s s') (h' : Extends r D' s' s'') : Extends r (D ∪ D') s s'' where
  toBuilds := h.toBuilds.trans h'.toBuilds
  data q hq hn := by rw [h'.data q (h.held hq) (h.tables q hq hn), h.data q hq hn]
  looks v hv e he := h'.looks v hv e (h.looks v hv e he)
  tables q hq hn := h'.tables q (h.held hq) (h.tables q hq hn)

/-! ## A space as it stands -/

/-- The physical page of the user page `v`. -/
def Space.page (mem : Nat → Page) (r v : Nat) : Nat := ((lookup mem r v).getD (0, 0)).1

namespace Mapped

section
variable (h : Mapped trampoline s r tf n guard)
include h

theorem lookup_page {v : Nat} (hv : v < n) :
    ∃ f, lookup s.mem r v = some (Space.page s.mem r v, f) ∧ UserLeaf s r tf guard v (Space.page s.mem r v) f := by
  obtain ⟨pa, f, hl, hu⟩ := h.user v hv
  have hpg : Space.page s.mem r v = pa := by rw [Space.page, hl]; rfl
  rw [hpg]
  exact ⟨f, hl, hu⟩

theorem page_inj {v v' : Nat} (hv : v < n) (hv' : v' < n)
    (he : Space.page s.mem r v = Space.page s.mem r v') : v = v' := by
  obtain ⟨f, hf, -⟩ := h.lookup_page hv
  obtain ⟨f', hf', -⟩ := h.lookup_page hv'
  rw [← he] at hf'
  exact h.inj v hv v' hv' _ f f' hf hf'

theorem mem_upages {q : Nat} : q ∈ upages s.mem r ↔ ∃ v < n, Space.page s.mem r v = q := by
  constructor
  · rintro ⟨v, hv, f, hl⟩
    refine ⟨v, ?_, by rw [Space.page, hl]; rfl⟩
    by_contra hn
    unfold tfPage at hv
    have := h.empty v (by omega) (by omega) (by unfold trampPage; omega) (by unfold tfPage; omega)
    rw [this] at hl
    cases hl
  · rintro ⟨v, hv, rfl⟩
    obtain ⟨f, hf, -⟩ := h.lookup_page hv
    exact ⟨v, lt_of_lt_of_le hv h.fits, f, hf⟩

theorem owns_held : owns s.mem r ⊆ A.held s.st := by
  rintro q (hq | hq)
  · exact h.held hq
  · obtain ⟨v, hv, rfl⟩ := h.mem_upages.mp hq
    obtain ⟨f, -, hu⟩ := h.lookup_page hv
    exact hu.held

theorem tf_notMem : tf ∉ owns s.mem r := by
  rintro (hq | hq)
  · exact h.tf_apart hq
  · obtain ⟨v, hv, hp⟩ := h.mem_upages.mp hq
    obtain ⟨f, -, hu⟩ := h.lookup_page hv
    exact hu.ne_tf hp

end

theorem le_memory (hA : A.Exact) (h : Mapped trampoline s r tf n guard) : n ≤ 32768 := by
  have hmaps : ∀ v ∈ range n, (Space.page s.mem r v - kernbase) / 4096 ∈ range 32768 := by
    intro v hv
    obtain ⟨f, -, hu⟩ := h.lookup_page (mem_range.mp hv)
    obtain ⟨h1, h2, -⟩ := hA.range hu.held
    change Space.page s.mem r v + 4096 ≤ 0x80000000 + 128 * 1024 * 1024 at h2
    change 0x80000000 ≤ Space.page s.mem r v at h1
    rw [mem_range]
    change (Space.page s.mem r v - 0x80000000) / 4096 < 32768
    omega
  have hinj : Set.InjOn (fun v => (Space.page s.mem r v - kernbase) / 4096) (range n) := by
    intro v hv v' hv' he
    have hvn := mem_range.mp (mem_coe.mp hv)
    have hvn' := mem_range.mp (mem_coe.mp hv')
    obtain ⟨f, -, hu⟩ := h.lookup_page hvn
    obtain ⟨f', -, hu'⟩ := h.lookup_page hvn'
    obtain ⟨h1, -, h3⟩ := hA.range hu.held
    obtain ⟨h1', -, h3'⟩ := hA.range hu'.held
    refine h.page_inj hvn hvn' ?_
    change (Space.page s.mem r v - 0x80000000) / 4096 = (Space.page s.mem r v' - 0x80000000) / 4096 at he
    change 0x80000000 ≤ Space.page s.mem r v at h1
    change 0x80000000 ≤ Space.page s.mem r v' at h1'
    change Space.page s.mem r v % 4096 = 0 at h3
    change Space.page s.mem r v' % 4096 = 0 at h3'
    omega
  have := card_le_card_of_injOn _ hmaps hinj
  rwa [card_range, card_range] at this

end Mapped

theorem Mapped.frame (h : Mapped trampoline s r tf n guard) (hmem : ∀ q ∈ tables s.mem r, s'.mem q = s.mem q)
    (hheld : ∀ q ∈ owns s.mem r, q ∈ A.held s'.st) : Mapped trampoline s' r tf n guard := by
  have hl : ∀ v, lookup s'.mem r v = lookup s.mem r v := lookup_congr hmem
  have ht : tables s'.mem r = tables s.mem r := nodes_congr hmem
  refine ⟨h.table.congr hmem, ?_, ?_, ?_, h.fits, ?_, ?_, ?_, ?_⟩
  · rw [ht]
    exact fun q hq => hheld q (.inl hq)
  · rw [hl, h.tramp]
  · rw [hl, h.trapframe]
  · intro v hv hn h1 h2
    rw [hl, h.empty v hv hn h1 h2]
  · intro v hv
    obtain ⟨pa, f, hf, hu⟩ := h.user v hv
    refine ⟨pa, f, by rw [hl, hf], ?_⟩
    exact ⟨hheld pa (.inr ⟨v, lt_of_lt_of_le hv h.fits, f, hf⟩), by rw [ht]; exact hu.apart, hu.ne_tf, hu.flags,
      hu.valid, hu.leaf, hu.user⟩
  · intro v hv v' hv' pa f f' hf hf'
    rw [hl] at hf hf'
    exact h.inj v hv v' hv' pa f f' hf hf'
  · rw [ht]
    exact h.tf_apart

theorem Space.frame (h : Space trampoline s r tf n guard) (hmem : ∀ q ∈ tables s.mem r, s'.mem q = s.mem q)
    (hheld : ∀ q ∈ owns s.mem r, q ∈ A.held s'.st) (htf : tf ∈ A.held s'.st) : Space trampoline s' r tf n guard :=
  ⟨h.toMapped.frame hmem hheld, htf⟩

theorem owns_congr {mem mem' : Nat → Page} (hmem : ∀ q ∈ tables mem r, mem' q = mem q) :
    owns mem' r = owns mem r := by
  have ht : tables mem' r = tables mem r := nodes_congr hmem
  rw [owns, ht]
  refine congrArg _ (Set.ext fun q => ?_)
  exact exists_congr fun v => and_congr_right fun _ => exists_congr fun f => by rw [lookup_congr hmem]

/-! ## One page more -/

/-- The state in which a page `m` has been given out and filled with `c`. -/
def filled (s₁ : Ram A) (m : Nat) (c : Page) : Ram A := { s₁ with mem := Function.update s₁.mem m c }

section
variable {s₁ : Ram A} {m perm : Nat} {c : Page}

theorem Fresh.filled_keep (hf : Fresh m s s₁) {q : Nat} (hq : q ∈ A.held s.st) : (filled s₁ m c).mem q = s.mem q := by
  have hqm : q ≠ m := by
    rintro rfl
    exact hf.fresh hq
  exact (Function.update_of_ne hqm _ _).trans (hf.keep q hqm)

theorem filled_self (s₁ : Ram A) (m : Nat) (c : Page) : (filled s₁ m c).mem m = c := by
  exact Function.update_self _ _ _

theorem span_page (n : Nat) : span (n * pgsize) pgsize = 0 := by
  change (n * 4096 + 4096 - 1) / 4096 - n * 4096 / 4096 = 0
  omega

theorem mappage_takes {v pa perm : Nat} (hv : v < 2 ^ 26) (hperm : perm < 1024) (ht : Table s.mem r)
    (hin : tables s.mem r ⊆ A.held s.st) (hnone : lookup s.mem r v = none) (hpa : pa % pgsize = 0)
    (hpalt : pa < 2 ^ 64) :
    Takes (mappages r (v * pgsize) pgsize pa perm) s (missing s.mem r (dirs v)) fun ret s' =>
      ret = 0 ∧ Maps r v 0 pa perm s s' := by
  have hlt : v * pgsize + pgsize ≤ maxva := by
    change v * 4096 + 4096 ≤ 2 ^ 38
    omega
  have hfree : ∀ k ≤ span (v * pgsize) pgsize, lookup s.mem r (v * pgsize / pgsize + k) = none := by
    intro k hk
    rw [span_page] at hk
    rw [Nat.le_zero.mp hk, page_div, add_zero, hnone]
  have hend : pa + span (v * pgsize) pgsize * pgsize < 2 ^ 64 := by
    rw [span_page]
    exact hpalt
  have hmaps := mappages_takes hperm (by decide) hlt ht hin hfree hpa hend
  rwa [span_page, page_div, dirsIn_succ_self] at hmaps

theorem missing_congr {mem mem' : Nat → Page} (hmem : ∀ q ∈ tables mem r, mem' q = mem q)
    (hD : ∀ π ∈ D, π.length ≤ 2) : missing mem' r D = missing mem r D := by
  refine congrArg Set.ncard (Set.ext fun π => and_congr_right fun hπ => ?_)
  rw [node_congr hmem (Nat.le_succ_of_le (hD π hπ))]

theorem Space.lookup_next (h : Space trampoline s r tf n guard) (hn : n < tfPage) : lookup s.mem r n = none := by
  unfold tfPage at hn
  exact h.empty n (by omega) (Nat.le_refl n) (by unfold trampPage; omega) (by unfold tfPage; omega)

section
variable (h : Space trampoline s r tf n guard) (hn : n < tfPage) (hf : Fresh m s s₁)
  (hm : Maps r n 0 m perm (filled s₁ m c) s')
include h hf

theorem Space.filled_tables : tables (filled s₁ m c).mem r = tables s.mem r :=
  nodes_congr fun _ hq => hf.filled_keep (h.held hq)

include hm

/-- The tables after the page has been mapped: old ones, or pages that were not held. -/
theorem Space.mapped_tables {q : Nat} (hq : q ∈ tables s'.mem r) :
    q ∈ tables s.mem r ∨ q ∈ A.held s'.st ∧ q ∉ A.held s.st ∧ q ≠ m := by
  have hheld : A.held (filled s₁ m c).st = insert m (A.held s.st) := hf.held
  rcases hm.adds.grows.fresh hq with h1 | h1
  · exact .inl (h.filled_tables hf ▸ h1)
  · rw [hheld] at h1
    exact .inr ⟨h1.1, fun h2 => h1.2 (.inr h2), fun h2 => h1.2 (.inl h2)⟩

omit h in
theorem Space.mapped_held : insert m (A.held s.st) ⊆ A.held s'.st := by
  have := hm.adds.grows.held
  rwa [show A.held (filled s₁ m c).st = insert m (A.held s.st) from hf.held] at this

theorem Space.mapped_lookup {v : Nat} (hv : v < 2 ^ 27) :
    lookup s'.mem r v = if v = n then some (m, perm ||| pteV) else lookup s.mem r v := by
  rw [hm.lookup v hv, lookup_congr fun _ hq => hf.filled_keep (h.held hq)]
  by_cases he : v = n
  · subst he
    rw [if_pos rfl, if_pos ⟨Nat.le_refl v, Nat.le_refl v⟩, Nat.sub_self, zero_mul, add_zero]
  · rw [if_neg he, if_neg (by omega)]

theorem Space.mapped_looks (hn : n < tfPage) {v : Nat} (hv : v < 2 ^ 27) {e : Nat × Nat}
    (he : lookup s.mem r v = some e) : lookup s'.mem r v = some e := by
  have hne : v ≠ n := by
    rintro rfl
    rw [h.lookup_next hn] at he
    cases he
  rw [h.mapped_lookup hf hm hv, if_neg hne, he]

theorem Space.mapped_keep {q : Nat} (hq : q ∈ insert m (A.held s.st)) (hqt : q ∉ tables s.mem r) :
    s'.mem q = (filled s₁ m c).mem q := by
  refine hm.adds.grows.keep q ?_ ?_
  · rwa [show A.held (filled s₁ m c).st = insert m (A.held s.st) from hf.held]
  · rwa [h.filled_tables hf]

include hn

theorem Space.mapped_upages : upages s'.mem r = insert m (upages s.mem r) := by
  unfold tfPage at hn
  ext q
  constructor
  · rintro ⟨v, hv, f, hl⟩
    unfold tfPage at hv
    rw [h.mapped_lookup hf hm (by omega)] at hl
    split_ifs at hl with he
    · cases hl
      exact .inl rfl
    · exact .inr ⟨v, hv, f, hl⟩
  · rintro (rfl | ⟨v, hv, f, hl⟩)
    · refine ⟨n, hn, perm ||| pteV, ?_⟩
      rw [h.mapped_lookup hf hm (by omega), if_pos rfl]
    · unfold tfPage at hv
      exact ⟨v, hv, f, h.mapped_looks hf hm hn (by omega) hl⟩

theorem Space.mapped_owns : owns s'.mem r = owns s.mem r ∪ (A.held s'.st \ A.held s.st) := by
  have hms : m ∈ A.held s'.st := Space.mapped_held hf hm (.inl rfl)
  rw [owns, h.mapped_upages hn hf hm]
  ext q
  constructor
  · rintro (hq | rfl | hq)
    · rcases h.mapped_tables hf hm hq with h1 | h1
      · exact .inl (.inl h1)
      · exact .inr ⟨h1.1, h1.2.1⟩
    · exact .inr ⟨hms, hf.fresh⟩
    · exact .inl (.inr hq)
  · rintro ((hq | hq) | ⟨h1, h2⟩)
    · exact .inl (hm.adds.grows.mono (by rwa [h.filled_tables hf]))
    · exact .inr (.inr hq)
    · -- what is new is the page or a table
      rcases hm.adds.drawn h1 with h3 | h3
      · rw [show A.held (filled s₁ m c).st = insert m (A.held s.st) from hf.held] at h3
        rcases h3 with rfl | h3
        · exact .inr (.inl rfl)
        · exact absurd h3 h2
      · exact .inl h3

theorem Space.mapped_extends : Extends r (dirs n) s s' := by
  have hdata : ∀ q ∈ A.held s.st, q ∉ tables s.mem r → s'.mem q = s.mem q := fun q hq hqt =>
    (h.mapped_keep hf hm (.inr hq) hqt).trans (hf.filled_keep hq)
  refine ⟨⟨?_, h.mapped_owns hn hf hm, ?_, ?_⟩, hdata, fun v hv e => h.mapped_looks hf hm hn hv, ?_⟩
  · exact (Set.subset_insert _ _).trans (Space.mapped_held hf hm)
  · exact fun q hq hqo => hdata q hq fun hqt => hqo (.inl hqt)
  · intro π hπ
    have := hm.adds.grows.absent π hπ
    rwa [node_congr (fun q hq => hf.filled_keep (h.held hq)) (Nat.le_succ_of_le hπ), add_zero,
      dirsIn_succ_self] at this
  · intro q hq hqt hq'
    rcases h.mapped_tables hf hm hq' with h1 | h1
    · exact hqt h1
    · exact h1.2.1 hq

theorem Space.mapped_space (hperm : perm < 1024) (hrwx : perm &&& (pteR ||| pteW ||| pteX) ≠ 0)
    (huser : perm.testBit 4 = true ∨ guard = some n) : Space trampoline s' r tf (n + 1) guard := by
  have hx := h.mapped_extends hn hf hm
  have hms : m ∈ A.held s'.st := Space.mapped_held hf hm (.inl rfl)
  have hnew : lookup s'.mem r n = some (m, perm ||| pteV) := by
    unfold tfPage at hn
    rw [h.mapped_lookup hf hm (by omega), if_pos rfl]
  have hmt : m ∉ tables s'.mem r := by
    intro hq
    rcases h.mapped_tables hf hm hq with h1 | h1
    · exact hf.fresh (h.held h1)
    · exact h1.2.2 rfl
  have hold : ∀ v < n, ∃ pa f, lookup s.mem r v = some (pa, f) ∧ lookup s'.mem r v = some (pa, f) ∧
      UserLeaf s r tf guard v pa f := by
    intro v hv
    obtain ⟨pa, f, hl, hu⟩ := h.user v hv
    have hfits := h.fits
    unfold tfPage at hfits
    exact ⟨pa, f, hl, hx.looks v (by omega) _ hl, hu⟩
  refine ⟨⟨hm.adds.grows.table, ?_, ?_, ?_, hn, ?_, ?_, ?_, hx.tables _ h.tf_held h.tf_apart⟩, hx.held h.tf_held⟩
  · intro q hq
    rcases h.mapped_tables hf hm hq with h1 | h1
    · exact hx.held (h.held h1)
    · exact h1.1
  · exact hx.looks _ (by decide) _ h.tramp
  · exact hx.looks _ (by decide) _ h.trapframe
  · intro v hv hvn h1 h2
    rw [h.mapped_lookup hf hm hv, if_neg (by omega)]
    exact h.empty v hv (by omega) h1 h2
  · intro v hv
    rcases Nat.lt_succ_iff_lt_or_eq.mp hv with hv | rfl
    · obtain ⟨pa, f, -, hl, hu⟩ := hold v hv
      exact ⟨pa, f, hl, hx.held hu.held, hx.tables _ hu.held hu.apart, hu.ne_tf, hu.flags, hu.valid, hu.leaf, hu.user⟩
    · refine ⟨m, _, hnew, hms, hmt, ?_, or_pteV_lt hperm, testBit_or_pteV perm, rwx_or_pteV hrwx, ?_⟩
      · rintro rfl
        exact hf.fresh h.tf_held
      · rw [Nat.testBit_or]
        exact huser.imp (fun hu => by rw [hu]; rfl) id
  · intro v hv v' hv' pa f f' hl hl'
    rcases Nat.lt_succ_iff_lt_or_eq.mp hv with hv | rfl <;> rcases Nat.lt_succ_iff_lt_or_eq.mp hv' with hv' | rfl
    · obtain ⟨pa1, f1, hl1, hs1, -⟩ := hold v hv
      obtain ⟨pa2, f2, hl2, hs2, -⟩ := hold v' hv'
      rw [hs1] at hl
      rw [hs2] at hl'
      cases hl
      cases hl'
      exact h.inj v hv v' hv' _ _ _ hl1 hl2
    · obtain ⟨pa1, f1, -, hs1, hu⟩ := hold v hv
      rw [hs1] at hl
      rw [hnew] at hl'
      cases hl
      cases hl'
      exact absurd hu.held hf.fresh
    · obtain ⟨pa1, f1, -, hs1, hu⟩ := hold v' hv'
      rw [hs1] at hl'
      rw [hnew] at hl
      cases hl
      cases hl'
      exact absurd hu.held hf.fresh
    · rfl

end

/-- **One page more**: a page that has just been given out and filled is mapped at the end of the space. -/
theorem Space.extend (h : Space trampoline s r tf n guard) (hn : n < tfPage) (hf : Fresh m s s₁) (c : Page)
    (hperm : perm < 1024) (hrwx : perm &&& (pteR ||| pteW ||| pteX) ≠ 0)
    (huser : perm.testBit 4 = true ∨ guard = some n) :
    Takes (mappages r (n * pgsize) pgsize m perm) (filled s₁ m c) (missing s.mem r (dirs n)) fun ret s' =>
      ret = 0 ∧ Space trampoline s' r tf (n + 1) guard ∧ Extends r (dirs n) s s' ∧ s'.mem m = c ∧
        lookup s'.mem r n = some (m, perm ||| pteV) := by
  have hkeep : ∀ q ∈ tables s.mem r, (filled s₁ m c).mem q = s.mem q := fun q hq => hf.filled_keep (h.held hq)
  have hfits : n < 2 ^ 26 - 2 := hn
  have hin : tables (filled s₁ m c).mem r ⊆ A.held (filled s₁ m c).st := by
    rw [h.filled_tables hf, show A.held (filled s₁ m c).st = insert m (A.held s.st) from hf.held]
    exact h.held.trans (Set.subset_insert _ _)
  have hmaps := mappage_takes (show n < 2 ^ 26 by omega) hperm (h.table.congr hkeep) hin
    ((lookup_congr hkeep n).trans (h.lookup_next hn)) hf.aligned hf.lt
  rw [missing_congr hkeep fun π => dirs_length] at hmaps
  refine hmaps.mono fun ret s' hs' => ⟨hs'.1, ?_, h.mapped_extends hn hf hs'.2, ?_, ?_⟩
  · exact h.mapped_space hn hf hs'.2 hperm hrwx huser
  · rw [h.mapped_keep hf hs'.2 (.inl rfl) fun hq => hf.fresh (h.held hq)]
    exact Function.update_self _ _ _
  · rw [h.mapped_lookup hf hs'.2 (by omega), if_pos rfl]

end

/-! ## `uvmalloc` -/

/-- The pages it takes to bring a space from `n` to `n'` pages: the pages, and the tables that are missing. -/
noncomputable def need (mem : Nat → Page) (r n n' : Nat) : Nat := (n' - n) + missing mem r (dirsIn n n')

theorem dirsIn_empty {a b : Nat} (h : b ≤ a) : dirsIn a b = ∅ := by
  refine Set.eq_empty_of_forall_notMem ?_
  rintro π ⟨v, h1, h2, -⟩
  omega

theorem need_self (mem : Nat → Page) (r : Nat) {n n' : Nat} (h : n' ≤ n) : need mem r n n' = 0 := by
  rw [need, dirsIn_empty h, Nat.sub_eq_zero_of_le h, missing_eq_zero fun π hπ => hπ.elim]

theorem Builds.need_add {a b c : Nat} (h : Builds r (dirsIn a b) s s') (hab : a ≤ b) (hbc : b ≤ c) :
    need s.mem r a b + need s'.mem r b c = need s.mem r a c := by
  have := missing_union h.absent (E := dirsIn b c) (fun π => dirsIn_length) fun π => dirsIn_length
  rw [← dirsIn_union hab hbc] at this
  unfold need
  omega

theorem lt_npages {n sz : Nat} : n < npages sz ↔ n * pgsize < sz := by
  change n < (sz + 4096 - 1) / 4096 ↔ n * 4096 < sz
  omega

theorem Takes.ufkalloc_bind {α : Type} {f : Nat → VmM A α} {Q : α → Ram A → Prop} {k : Nat} (hk : 1 ≤ k)
    (hf : ∀ m s₁, Fresh m s s₁ → Takes (f m) s₁ (k - 1) Q) : Takes (ufkalloc >>= f) s k Q :=
  (ufkalloc_takes s).bind_sub hk hf

theorem need_succ (mem : Nat → Page) (r n : Nat) : need mem r n (n + 1) = 1 + missing mem r (dirs n) := by
  rw [need, dirsIn_succ_self]
  omega

theorem need_succ_le (mem : Nat → Page) (r : Nat) {n n' : Nat} (h : n < n') :
    1 + missing mem r (dirs n) ≤ need mem r n n' := by
  have hmono : missing mem r (dirs n) ≤ missing mem r (dirsIn n n') :=
    missing_mono (fun π hπ => ⟨n, Nat.le_refl n, h, hπ⟩) fun π => dirsIn_length
  unfold need
  omega

theorem growLoop_takes (hA : A.Exact) (oldsz newsz k : Nat) :
    ∀ (s : Ram A) (fuel n : Nat), k ≤ fuel → npages newsz = n + k → Space trampoline s r tf n guard →
      Takes (growLoop r oldsz newsz fuel (n * pgsize)) s (need s.mem r n (n + k)) fun ret s' =>
        ret = newsz ∧ Space trampoline s' r tf (n + k) guard ∧ Extends r (dirsIn n (n + k)) s s' := by
  induction k with
  | zero =>
    intro s fuel n _ hnew h
    have hdone : ¬ n * pgsize < newsz := by
      rw [← lt_npages]
      omega
    have hstop : (growLoop r oldsz newsz fuel (n * pgsize) : VmM A Nat) = pure newsz := by
      cases fuel with
      | zero => rfl
      | succ fuel => rw [growLoop, if_neg hdone]
    rw [add_zero, need_self _ _ (Nat.le_refl n), dirsIn_empty (Nat.le_refl n), hstop]
    exact .pure ⟨rfl, h, .refl s r⟩
  | succ k ih =>
    intro s fuel n hfuel hnew h
    obtain ⟨fuel, rfl⟩ := Nat.exists_eq_succ_of_ne_zero (ne_of_gt (lt_of_lt_of_le (Nat.succ_pos k) hfuel))
    have hmore : n * pgsize < newsz := by
      rw [← lt_npages]
      omega
    have hmem := h.le_memory hA
    have hn : n < tfPage := by
      unfold tfPage
      omega
    rw [growLoop, if_pos hmore]
    have hle := need_succ_le s.mem r (show n < n + (k + 1) by omega)
    refine Takes.ufkalloc_bind (by omega) fun m s₁ hf => ?_
    rw [if_neg (Nat.pos_iff_ne_zero.mp hf.pos)]
    refine Takes.memset ?_
    refine (h.extend hn hf (fun _ => 0) (by decide) (by decide) (.inl (by decide))).bind_sub (by omega)
      fun ret s2 hs2 => ?_
    obtain ⟨rfl, hsp, hx, -, -⟩ := hs2
    rw [next_page (by unfold tfPage at hn; omega), show n + (k + 1) = n + 1 + k by omega]
    rw [← dirsIn_succ_self n] at hx
    have htotal := hx.need_add (Nat.le_succ n) (Nat.le_add_right (n + 1) k)
    rw [need_succ] at htotal
    refine ((ih s2 fuel (n + 1) (by omega) (by omega) hsp).mono fun ret s3 hs3 => ?_).congr (by omega)
    refine ⟨hs3.1, hs3.2.1, ?_⟩
    have := hx.trans hs3.2.2
    rwa [← dirsIn_union (Nat.le_succ n) (Nat.le_add_right (n + 1) k)] at this

theorem pgroundup_eq {sz : Nat} (h : npages sz ≤ 32768) : pgroundup sz = npages sz * pgsize := by
  change (sz + 4096 - 1) / 4096 ≤ 32768 at h
  change (sz + 4096 - 1) % 2 ^ 64 / 4096 * 4096 = (sz + 4096 - 1) / 4096 * 4096
  rw [Nat.mod_eq_of_lt (by omega)]

theorem npages_mono {a b : Nat} (h : a ≤ b) : npages a ≤ npages b :=
  Nat.div_le_div_right (Nat.sub_le_sub_right (Nat.add_le_add_right h _) _)

/-- **`uvmalloc`** brings a space to the larger of the two sizes. -/
theorem uvmalloc_takes (hA : A.Exact) {oldsz : Nat} (newsz : Nat) (h : Space trampoline s r tf (npages oldsz) guard) :
    Takes (uvmalloc r oldsz newsz) s (need s.mem r (npages oldsz) (npages (max oldsz newsz))) fun ret s' =>
      ret = max oldsz newsz ∧ Space trampoline s' r tf (npages (max oldsz newsz)) guard ∧
        Extends r (dirsIn (npages oldsz) (npages (max oldsz newsz))) s s' := by
  unfold uvmalloc
  split_ifs with hlt
  · rw [Nat.max_eq_left (le_of_lt hlt), need_self _ _ (le_rfl), dirsIn_empty (le_rfl)]
    exact .pure ⟨rfl, h, .refl s r⟩
  · have hle := npages_mono (Nat.le_of_not_lt hlt)
    obtain ⟨k, hk⟩ := Nat.exists_eq_add_of_le hle
    rw [pgroundup_eq (h.le_memory hA), Nat.max_eq_right (Nat.le_of_not_lt hlt), hk]
    refine growLoop_takes hA _ newsz k s _ (npages oldsz) ?_ hk h
    change k ≤ newsz / 4096 + 1
    change (newsz + 4096 - 1) / 4096 = npages oldsz + k at hk
    omega

/-! ## `uvmdealloc` -/

/-- The physical pages of the user pages from `m` on and before `n`. -/
def Space.cut (mem : Nat → Page) (r m n : Nat) : Set Nat := {q | ∃ v, m ≤ v ∧ v < n ∧ page mem r v = q}

theorem leaf_ne_pteV {f : Nat} (h : f &&& (pteR ||| pteW ||| pteX) ≠ 0) : f ≠ pteV := by
  rintro rfl
  exact h rfl

theorem Mapped.unmap_cut (hA : A.Exact) (h : Mapped trampoline s r tf n guard) (s₁ : Ram A) (ht : Table s₁.mem r)
    (hl : ∀ v < n, lookup s₁.mem r v = lookup s.mem r v) (hst : s₁.st = s.st) {m size : Nat}
    (hpos : 0 < size) (hlt : m * pgsize + size ≤ maxva) (hspan : m + span (m * pgsize) size + 1 = n) :
    ∃ mem st, uvmunmap r (m * pgsize) size true s₁ = .ok () ⟨mem, st⟩ ∧
      Unmaps r m (span (m * pgsize) size) s₁.mem mem ∧ A.held st = A.held s.st \ Space.cut s.mem r m n := by
  have hmem : ∀ x, x ∈ pagesFreed true (Space.page s.mem r) m (span (m * pgsize) size) ↔ x ∈ Space.cut s.mem r m n := by
    intro x
    rw [pagesFreed, if_pos rfl, List.mem_map]
    constructor
    · rintro ⟨v, hv, rfl⟩
      rw [List.mem_range'_1] at hv
      exact ⟨v, hv.1, by omega, rfl⟩
    · rintro ⟨v, h1, h2, rfl⟩
      refine ⟨v, ?_, rfl⟩
      rw [List.mem_range'_1]
      omega
  have hnd : (pagesFreed true (Space.page s.mem r) m (span (m * pgsize) size)).Nodup := by
    refine List.Nodup.map_on (fun v hv v' hv' he => ?_) List.nodup_range'
    rw [List.mem_range'_1] at hv hv'
    exact h.page_inj (by omega) (by omega) he
  have hin : ∀ x ∈ pagesFreed true (Space.page s.mem r) m (span (m * pgsize) size), x ∈ A.held s₁.st := by
    intro x hx
    obtain ⟨v, -, hv, rfl⟩ := (hmem x).mp hx
    rw [hst]
    exact h.owns_held (.inr (h.mem_upages.mpr ⟨v, hv, rfl⟩))
  obtain ⟨st, hfree, hheld⟩ := hA.freeAll hnd hin
  have hpg : m * pgsize / pgsize = m := page_div m
  have hmapped : ∀ x, m * pgsize / pgsize ≤ x → x ≤ m * pgsize / pgsize + span (m * pgsize) size →
      lookup s₁.mem r x = some (Space.page s.mem r x, ((lookup s.mem r x).getD (0, 0)).2) ∧
        ((lookup s.mem r x).getD (0, 0)).2 ≠ pteV := by
    intro x h1 h2
    obtain ⟨f, hf, hu⟩ := h.lookup_page (show x < n by omega)
    rw [hl x (by omega), hf]
    exact ⟨rfl, leaf_ne_pteV hu.leaf⟩
  obtain ⟨mem, hrun, hun⟩ := uvmunmap_ok (Space.page s.mem r) _ hpos hlt ht hmapped (by rwa [hpg])
  rw [hpg] at hun
  refine ⟨mem, st, hrun, hun, ?_⟩
  rw [hheld, hst]
  exact congrArg _ (Set.ext hmem)

theorem Space.shrink (h : Space trampoline s r tf n guard) {m k : Nat} (hm : m + k + 1 = n) {mem : Nat → Page}
    {st : A.St} (hun : Unmaps r m k s.mem mem) (hheld : A.held st = A.held s.st \ cut s.mem r m n) :
    Space trampoline ⟨mem, st⟩ r tf m guard := by
  have hfits := h.fits
  have hfits' : n ≤ 2 ^ 26 - 2 := hfits
  have hlook : ∀ v < 2 ^ 27, v < m ∨ n ≤ v → lookup mem r v = lookup s.mem r v := by
    intro v hv hout
    rw [hun.lookup v hv, if_neg (by omega)]
  have hkeep : ∀ q ∈ A.held s.st, q ∉ upages s.mem r → q ∈ A.held st := by
    intro q hq hqu
    rw [hheld]
    refine ⟨hq, ?_⟩
    rintro ⟨v, -, hv, rfl⟩
    exact hqu (h.mem_upages.mpr ⟨v, hv, rfl⟩)
  have htu : ∀ q ∈ tables s.mem r, q ∉ upages s.mem r := by
    rintro q hq hqu
    obtain ⟨v, hv, rfl⟩ := h.mem_upages.mp hqu
    obtain ⟨f, -, hu⟩ := h.lookup_page hv
    exact hu.apart hq
  have htf : tf ∉ upages s.mem r := fun hq => h.tf_notMem (.inr hq)
  refine ⟨⟨hun.edits.table, ?_, ?_, ?_, by omega, ?_, ?_, ?_, ?_⟩, hkeep tf h.tf_held htf⟩
  · change tables mem r ⊆ A.held st
    rw [hun.edits.tables]
    exact fun q hq => hkeep q (h.held hq) (htu q hq)
  · exact (hlook _ (by decide) (.inr (by unfold trampPage; omega))).trans h.tramp
  · exact (hlook _ (by decide) (.inr (by unfold tfPage; omega))).trans h.trapframe
  · intro v hv hmv h1 h2
    change lookup mem r v = none
    rw [hun.lookup v hv]
    split_ifs with hin
    · rfl
    · exact h.empty v hv (by omega) h1 h2
  · intro v hv
    obtain ⟨f, hf, hu⟩ := h.lookup_page (show v < n by omega)
    refine ⟨Space.page s.mem r v, f, (hlook v (by omega) (.inl hv)).trans hf, ?_, ?_, hu.ne_tf, hu.flags, hu.valid,
      hu.leaf, hu.user⟩
    · change _ ∈ A.held st
      rw [hheld]
      refine ⟨hu.held, ?_⟩
      rintro ⟨v', h1, h2, he⟩
      have := h.page_inj h2 (by omega) he
      omega
    · change _ ∉ tables mem r
      rw [hun.edits.tables]
      exact hu.apart
  · intro v hv v' hv' pa f f' hf hf'
    change lookup mem r v = some (pa, f) at hf
    change lookup mem r v' = some (pa, f') at hf'
    rw [hlook v (by omega) (.inl hv)] at hf
    rw [hlook v' (by omega) (.inl hv')] at hf'
    exact h.inj v (by omega) v' (by omega) pa f f' hf hf'
  · change tf ∉ tables mem r
    rw [hun.edits.tables]
    exact h.tf_apart

/-- What is left of the space, and what is not held any more. -/
structure Shrinks (r m n : Nat) (s s' : Ram A) : Prop where
  held : A.held s'.st = A.held s.st \ Space.cut s.mem r m n
  keep : ∀ q, q ∉ tables s.mem r → s'.mem q = s.mem q
  looks : ∀ v < m, lookup s'.mem r v = lookup s.mem r v
  node : ∀ π : List (Fin 512), π.length ≤ 2 → node ptr s'.mem r π = Trie.node ptr s.mem r π

/-- **`uvmdealloc`** cuts a space down to the new size, if that is smaller. -/
theorem uvmdealloc_ok (hA : A.Exact) {oldsz : Nat} (newsz : Nat) (h : Space trampoline s r tf (npages oldsz) guard) :
    ∃ s', uvmdealloc r oldsz newsz s = .ok (min oldsz newsz) s' ∧
      Space trampoline s' r tf (npages (min oldsz newsz)) guard ∧
      Shrinks r (npages (min oldsz newsz)) (npages oldsz) s s' := by
  have hmax := h.le_memory hA
  have hnone : ∀ n, Space.cut s.mem r n n = ∅ := by
    intro n
    refine Set.eq_empty_of_forall_notMem ?_
    rintro q ⟨v, h1, h2, -⟩
    omega
  have hsame : ∀ n, Shrinks r n n s s := fun n =>
    ⟨by rw [hnone, Set.sdiff_empty], fun _ _ => rfl, fun _ _ => rfl, fun _ _ => rfl⟩
  unfold uvmdealloc
  split_ifs with hle
  · rw [Nat.min_eq_left hle]
    exact ⟨s, rfl, h, hsame _⟩
  · have hlt : newsz < oldsz := Nat.lt_of_not_le hle
    have hmono := npages_mono (le_of_lt hlt)
    rw [Nat.min_eq_right (le_of_lt hlt), pgroundup_eq hmax, pgroundup_eq (le_trans hmono hmax)]
    by_cases hn : npages newsz < npages oldsz
    · have hup : npages newsz * pgsize < oldsz := lt_npages.mp hn
      have hsp : npages newsz + span (npages newsz * pgsize) (oldsz - npages newsz * pgsize) + 1 = npages oldsz := by
        rw [span, Nat.add_sub_of_le (le_of_lt hup), page_div]
        change npages newsz + ((oldsz - 1) / 4096 - npages newsz) + 1 = (oldsz + 4096 - 1) / 4096
        change npages newsz * 4096 < oldsz at hup
        omega
      have hva : npages newsz * pgsize + (oldsz - npages newsz * pgsize) ≤ maxva := by
        rw [Nat.add_sub_of_le (le_of_lt hup)]
        change (oldsz + 4096 - 1) / 4096 ≤ 32768 at hmax
        change oldsz ≤ 2 ^ 38
        omega
      obtain ⟨mem, st, hrun, hun, hheld⟩ :=
        h.unmap_cut hA s h.table (fun _ _ => rfl) rfl (Nat.sub_pos_of_lt hup) hva hsp
      refine ⟨⟨mem, st⟩, ?_, h.shrink hsp hun hheld, hheld, hun.edits.keep, ?_, hun.edits.node⟩
      · rw [if_pos (Nat.mul_lt_mul_of_pos_right hn (by decide))]
        exact bind_of_ok hrun
      · intro v hv
        exact (hun.lookup v (by omega)).trans (if_neg (by omega))
    · have heq : npages newsz = npages oldsz := by omega
      refine ⟨s, ?_, heq ▸ h, heq ▸ hsame _⟩
      rw [if_neg (by rw [heq]; exact lt_irrefl _)]
      rfl

end

end InternetOs.Vm
