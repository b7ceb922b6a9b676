import InternetOs.Proc.Create

/-!
# Loading an image

What `exec` does to the new address space before it commits: segments and arguments are written into
user pages and nowhere else (`Touches`), and the space grows as far as the program headers ask
(`scan`, the loop over the headers without its effects).

    loadseg, copyout: only user pages change                              (loadseg_ok, copyout_ok)
    the loop over the headers ends with what `scan` says                            (loadLoop_takes)
-/

namespace InternetOs.Vm

open Trie
open Mem (pgsize kernbase phystop)

section
variable {A : PageAlloc} {trampoline r tf n : Nat} {guard : Option Nat} {s s' s'' : Ram A}
  {va pa sz v : Nat} {file : List UInt8} {mem : Nat → Page}

/-! ## Writes into user pages -/

/-- Only user pages of the space `r` have changed. -/
structure Touches (r : Nat) (s s' : Ram A) : Prop where
  st : s'.st = s.st
  keep : ∀ q, q ∉ upages s.mem r → s'.mem q = s.mem q

theorem Touches.refl (r : Nat) (s : Ram A) : Touches r s s := ⟨rfl, fun _ _ => rfl⟩

section
variable (h : Space trampoline s r tf n guard)
include h

theorem Space.touch_tables (ht : Touches r s s') :
    ∀ q ∈ tables s.mem r, s'.mem q = s.mem q := fun q hq => ht.keep q (h.tables_upages hq)

theorem Space.touch_upages (ht : Touches r s s') : upages s'.mem r = upages s.mem r := by
  ext q
  exact exists_congr fun v => and_congr_right fun _ => exists_congr fun f => by
    rw [lookup_congr (h.touch_tables ht)]

theorem Space.touch (ht : Touches r s s') : Space trampoline s' r tf n guard := by
  refine h.frame (h.touch_tables ht) (fun q hq => ?_) ?_
  · rw [ht.st]
    exact h.owns_held hq
  · rw [ht.st]
    exact h.tf_held

theorem Space.touch_trans (ht : Touches r s s') (ht' : Touches r s' s'') : Touches r s s'' where
  st := ht'.st.trans ht.st
  keep q hq := by rw [ht'.keep q (by rwa [h.touch_upages ht]), ht.keep q hq]

theorem Space.touch_builds (ht : Touches r s s') : Builds r ∅ s s' where
  held := by rw [ht.st]
  owns := by rw [ht.st, sdiff_self, Set.bot_eq_empty, Set.union_empty, owns_congr (h.touch_tables ht)]
  keep q _ hq := ht.keep q fun hu => hq (.inr hu)
  absent π hπ := by
    rw [node_congr (h.touch_tables ht) (Nat.le_succ_of_le hπ)]
    exact ⟨fun h => ⟨h, Set.notMem_empty π⟩, fun h => h.1⟩

theorem Space.addr_mem (hne : PageMap.addr (lookup s.mem r) va ≠ 0) :
    PageMap.addr (lookup s.mem r) va ∈ upages s.mem r := by
  unfold PageMap.addr at hne ⊢
  split_ifs at hne ⊢ with hva
  · exact absurd rfl hne
  · have hv : va / pgsize < 2 ^ 26 := Nat.div_lt_of_lt_mul (not_le.mp hva)
    cases hl : lookup s.mem r (va / pgsize) with
    | none =>
      rw [hl] at hne
      exact absurd rfl hne
    | some e =>
      obtain ⟨pa, f⟩ := e
      simp only [hl] at hne ⊢
      split_ifs at hne ⊢ with hf
      · refine ⟨va / pgsize, ?_, f, hl⟩
        -- the trampoline and the trapframe are not user pages
        by_contra htop
        have : va / pgsize = trampPage ∨ va / pgsize = tfPage := by
          unfold tfPage at htop ⊢
          unfold trampPage
          omega
        rcases this with he | he
        · rw [he, h.tramp] at hl
          cases hl
          exact absurd hf (by decide)
        · rw [he, h.trapframe] at hl
          cases hl
          exact absurd hf (by decide)
      · exact absurd rfl hne

end

theorem copyIn_touches (hpa : pa ∈ upages s.mem r) (off : Nat) (src : List UInt8) :
    ∃ s', copyIn pa off src s = .ok () s' ∧ Touches r s s' := by
  refine ⟨filled s pa (putBytes (s.mem pa) off src), rfl, rfl, fun q hq => ?_⟩
  have hne : q ≠ pa := by
    rintro rfl
    exact hq hpa
  exact Function.update_of_ne hne _ _

theorem copyoutLoop_ok (fuel : Nat) : ∀ (s : Ram A) (dstva : Nat) (src : List UInt8),
    Space trampoline s r tf n guard →
    ∃ ret s', copyoutLoop r fuel dstva src s = .ok ret s' ∧ Touches r s s' := by
  induction fuel with
  | zero => exact fun s _ _ _ => ⟨0, s, rfl, .refl r s⟩
  | succ fuel ih =>
    intro s dstva src h
    unfold copyoutLoop
    split_ifs with hlen
    · rw [bind_of_ok (walkaddr_eq r (pgrounddown dstva) s)]
      split_ifs with h0
      · exact ⟨-1, s, rfl, .refl r s⟩
      · obtain ⟨s1, hrun, ht⟩ := copyIn_touches (h.addr_mem h0) (dstva - pgrounddown dstva)
          (src.take (min (pgsize - (dstva - pgrounddown dstva)) src.length))
        obtain ⟨ret, s2, hrun', ht'⟩ := ih s1 (wrap (pgrounddown dstva + pgsize))
          (src.drop (min (pgsize - (dstva - pgrounddown dstva)) src.length)) (h.touch ht)
        exact ⟨ret, s2, (bind_of_ok hrun).trans hrun', h.touch_trans ht ht'⟩
    · exact ⟨0, s, rfl, .refl r s⟩

theorem copyout_ok (h : Space trampoline s r tf n guard) (dstva : Nat) (src : List UInt8) :
    ∃ ret s', copyout r dstva src s = .ok ret s' ∧ Touches r s s' := copyoutLoop_ok _ s dstva src h

/-! ## The arguments -/

theorem pushArgs_ok (stackbase : Nat) (argv : List (List UInt8)) : ∀ (s : Ram A) (sp : Nat) (ustack : List Nat),
    Space trampoline s r tf n guard →
    ∃ o s', pushArgs r stackbase argv sp ustack s = .ok o s' ∧ Touches r s s' := by
  induction argv with
  | nil => exact fun s sp ustack _ => ⟨some (sp, ustack), s, rfl, .refl r s⟩
  | cons arg argv ih =>
    intro s sp ustack h
    unfold pushArgs
    split_ifs with hmax
    · exact ⟨none, s, rfl, .refl r s⟩
    · simp only
      split_ifs with hbase
      · exact ⟨none, s, rfl, .refl r s⟩
      · obtain ⟨ret, s1, hrun, ht⟩ := copyout_ok h (pushDown sp ((arg.takeWhile (· ≠ 0)).length + 1))
          (arg.takeWhile (· ≠ 0) ++ [0])
        rw [bind_of_ok hrun]
        split_ifs with hret
        · exact ⟨none, s1, rfl, ht⟩
        · obtain ⟨o, s2, hrun', ht'⟩ := ih s1 _ _ (h.touch ht)
          exact ⟨o, s2, hrun', h.touch_trans ht ht'⟩

theorem pushStack_ok (h : Space trampoline s r tf n guard) (stackbase sp : Nat) (argv : List (List UInt8)) :
    ∃ o s', pushStack r stackbase sp argv s = .ok o s' ∧ Touches r s s' := by
  obtain ⟨o, s1, hrun, ht⟩ := pushArgs_ok stackbase argv s sp [] h
  unfold pushStack
  rw [bind_of_ok hrun]
  cases o with
  | none => exact ⟨none, s1, rfl, ht⟩
  | some e =>
    obtain ⟨sp', ustack⟩ := e
    simp only
    split_ifs with hbase
    · exact ⟨none, s1, rfl, ht⟩
    · obtain ⟨ret, s2, hrun', ht'⟩ := copyout_ok (h.touch ht) (pushDown sp' ((ustack.length + 1) * 8))
        ((ustack ++ [0]).flatMap wordBytes)
      rw [bind_of_ok hrun']
      split_ifs with hret
      · exact ⟨none, s2, rfl, h.touch_trans ht ht'⟩
      · exact ⟨_, s2, rfl, h.touch_trans ht ht'⟩

/-! ## Segments -/

/-- The file has the bytes of a segment: what `loadseg` finds out. -/
def segLoads (file : List UInt8) (offset sz : Nat) : Nat → Nat → Bool
  | 0, _ => true
  | fuel + 1, i =>
    if i < sz then
      match readi file (uint32 (offset + i)) (min (sz - i) pgsize) with
      | none => false
      | some bytes =>
        if bytes.length = min (sz - i) pgsize then segLoads file offset sz fuel (uint32 (i + pgsize)) else false
    else true

theorem uint32_of_lt {x : Nat} (h : x < 2 ^ 32) : uint32 x = x := by
  unfold uint32
  omega

theorem uint32_le (x : Nat) : uint32 x ≤ x := by
  unfold uint32
  omega

/-- In a space without a guard `walkaddr` finds every user page. -/
theorem Space.addr_ne_zero (hA : A.Exact) (h : Space trampoline s r tf n none) (hva : va < n * pgsize) :
    PageMap.addr (lookup s.mem r) va ≠ 0 := by
  have hv : va / pgsize < n := Nat.div_lt_of_lt_mul (by rwa [mul_comm])
  have hfits : n ≤ 2 ^ 26 - 2 := h.fits
  obtain ⟨f, hl, hu⟩ := h.lookup_page hv
  have hlt : ¬ maxva ≤ va := by
    change ¬ 2 ^ 38 ≤ va
    change va < n * 4096 at hva
    omega
  have hbit : f.testBit 4 = true := hu.user.resolve_right (Option.some_ne_none _).symm
  unfold PageMap.addr
  rw [if_neg hlt, hl]
  simp only [hbit, if_true]
  have := (hA.range hu.held).1
  change 0x80000000 ≤ _ at this
  omega

theorem loadsegLoop_ok (hA : A.Exact) {offset : Nat} (hva : va + sz ≤ n * pgsize)
    (fuel : Nat) : ∀ (s : Ram A) (i : Nat), Space trampoline s r tf n none →
    ∃ s', loadsegLoop r va file offset sz fuel i s = .ok (cond (segLoads file offset sz fuel i) 0 (-1)) s' ∧
      Touches r s s' := by
  induction fuel with
  | zero => exact fun s _ _ => ⟨s, rfl, .refl r s⟩
  | succ fuel ih =>
    intro s i h
    have hmax := h.le_memory hA
    unfold loadsegLoop segLoads
    by_cases hi : i < sz
    · have hlt : va + i < n * pgsize := by omega
      have hend : va + i < 32768 * 4096 := lt_of_lt_of_le hlt (Nat.mul_le_mul_right 4096 hmax)
      have hne := h.addr_ne_zero hA hlt
      rw [if_pos hi, if_pos hi, wrap_of_lt (by omega), bind_of_ok (walkaddr_eq r (va + i) s), if_neg hne]
      cases hread : readi file (uint32 (offset + i)) (min (sz - i) pgsize) with
      | none => exact ⟨s, rfl, .refl r s⟩
      | some bytes =>
        obtain ⟨s1, hrun, ht⟩ := copyIn_touches (h.addr_mem hne) 0 bytes
        simp only
        rw [bind_of_ok hrun]
        by_cases hlen : bytes.length = min (sz - i) pgsize
        · obtain ⟨s2, hrun', ht'⟩ := ih s1 (uint32 (i + pgsize)) (h.touch ht)
          refine ⟨s2, ?_, h.touch_trans ht ht'⟩
          rw [if_neg (not_not.mpr hlen), hrun', if_pos hlen]
        · refine ⟨s1, ?_, ht⟩
          rw [if_pos hlen, if_neg hlen]
          rfl
    · rw [if_neg hi, if_neg hi]
      exact ⟨s, rfl, .refl r s⟩

theorem loadseg_ok (hA : A.Exact) (h : Space trampoline s r tf n none) (offset : Nat) (file : List UInt8)
    (hal : va % pgsize = 0) (hva : va + sz ≤ n * pgsize) : ∃ s', loadseg r va file offset sz s =
      .ok (cond (segLoads file offset sz (sz / pgsize + 1) 0) 0 (-1)) s' ∧ Touches r s s' := by
  unfold loadseg
  rw [if_neg (not_not.mpr hal)]
  exact loadsegLoop_ok hA hva _ s 0 h

/-! ## The loop over the program headers -/

theorem leNat_lt (bs : List UInt8) : leNat bs < 256 ^ bs.length := by
  induction bs with
  | nil => exact Nat.one_pos
  | cons b bs ih =>
    rw [leNat, List.length_cons]
    have := b.toNat_lt
    omega

theorem field_lt (bytes : List UInt8) (off : Nat) : field bytes off 8 < 2 ^ 64 := by
  refine lt_of_lt_of_le (leNat_lt _) ?_
  exact (Nat.pow_le_pow_right (by decide) (List.length_take_le 8 _)).trans (by decide)

theorem readProghdr_memsz {off : Nat} {ph : Proghdr} (h : readProghdr file off = some ph) : ph.memsz < 2 ^ 64 := by
  unfold readProghdr at h
  split at h
  · split_ifs at h
    cases h
    exact field_lt _ _
  · cases h

/-- Where the loop over the headers leaves the size, and whether it gets through. -/
def scan (file : List UInt8) : Nat → Nat → Nat → Nat × Bool
  | 0, _, sz => (sz, true)
  | n + 1, off, sz =>
    match readProghdr file off with
    | none => (sz, false)
    | some ph =>
      if ph.type ≠ elfProgLoad then scan file n (uint32 (off + sizeofProghdr)) sz
      else if ph.memsz < ph.filesz then (sz, false)
      else if wrap (ph.vaddr + ph.memsz) < ph.vaddr then (sz, false)
      else
        let sz := max sz (wrap (ph.vaddr + ph.memsz))
        if sz = 0 then (sz, false)
        else if ph.vaddr % pgsize ≠ 0 then (sz, false)
        else if segLoads file (uint32 ph.off) (uint32 ph.filesz) (uint32 ph.filesz / pgsize + 1) 0 then
          scan file n (uint32 (off + sizeofProghdr)) sz
        else (sz, false)

theorem le_scan (file : List UInt8) (k off sz : Nat) : sz ≤ (scan file k off sz).1 := by
  induction k generalizing off sz with
  | zero => exact Nat.le_refl sz
  | succ k ih =>
    unfold scan
    split
    · exact Nat.le_refl sz
    · rename_i ph _
      have hmax : sz ≤ max sz (wrap (ph.vaddr + ph.memsz)) := Nat.le_max_left _ _
      simp only
      split_ifs
      · exact ih _ _
      · exact Nat.le_refl sz
      · exact Nat.le_refl sz
      · exact hmax
      · exact hmax
      · exact hmax.trans (ih _ _)
      · exact hmax

/-- The space at the end of the loop, and how it came about. -/
structure Loaded (trampoline r tf : Nat) (sz : Nat) (s : Ram A) (out res : Nat × Bool) (s' : Ram A) : Prop where
  res : res = out
  space : Space trampoline s' r tf (npages out.1) none
  builds : Builds r (dirsIn (npages sz) (npages out.1)) s s'

theorem Loaded.stop {b : Bool} (h : Space trampoline s r tf (npages sz) none) :
    Loaded trampoline r tf sz s (sz, b) (sz, b) s :=
  ⟨rfl, h, by rw [dirsIn_empty (Nat.le_refl _)]; exact .refl s r⟩

theorem Loaded.of_builds {sz' : Nat} {out res : Nat × Bool}
    (hb : Builds r (dirsIn (npages sz) (npages sz')) s s') (hle : sz ≤ sz') (hle' : sz' ≤ out.1)
    (h : Loaded trampoline r tf sz' s' out res s'') : Loaded trampoline r tf sz s out res s'' := by
  refine ⟨h.res, h.space, ?_⟩
  rw [dirsIn_union (npages_mono hle) (npages_mono hle')]
  exact hb.trans h.builds

/-- User pages may be written before the rest of the loop. -/
theorem Loaded.of_touches {out res : Nat × Bool} (hsp : Space trampoline s r tf (npages sz) none)
    (ht : Touches r s s') (h : Loaded trampoline r tf sz s' out res s'') : Loaded trampoline r tf sz s out res s'' := by
  refine ⟨h.res, h.space, ?_⟩
  have := (hsp.touch_builds ht).trans h.builds
  rwa [Set.empty_union] at this

theorem need_mono (mem : Nat → Page) (r n : Nat) {a b : Nat} (h : a ≤ b) : need mem r n a ≤ need mem r n b := by
  have hmono : missing mem r (dirsIn n a) ≤ missing mem r (dirsIn n b) :=
    missing_mono (fun π ⟨v, h1, h2, hv⟩ => ⟨v, h1, lt_of_lt_of_le h2 h, hv⟩) fun π => dirsIn_length
  unfold need
  omega

/-- The rest of the loop after a segment has been allocated. -/
def afterAlloc (r : Nat) (file : List UInt8) (k off : Nat) (ph : Proghdr) (sz : Nat) : VmM A (Nat × Bool) := do
  if sz = 0 then return (sz, false)
  else if ph.vaddr % pgsize ≠ 0 then return (sz, false)
  else
    let ret ← loadseg r ph.vaddr file (uint32 ph.off) (uint32 ph.filesz)
    if ret < 0 then return (sz, false)
    else loadLoop r file k (uint32 (off + sizeofProghdr)) sz

/-- What `scan` says of it. -/
def scanAfter (file : List UInt8) (k off : Nat) (ph : Proghdr) (sz : Nat) : Nat × Bool :=
  if sz = 0 then (sz, false)
  else if ph.vaddr % pgsize ≠ 0 then (sz, false)
  else if segLoads file (uint32 ph.off) (uint32 ph.filesz) (uint32 ph.filesz / pgsize + 1) 0 then
    scan file k (uint32 (off + sizeofProghdr)) sz
  else (sz, false)

theorem le_scanAfter (file : List UInt8) (k off : Nat) (ph : Proghdr) (sz : Nat) :
    sz ≤ (scanAfter file k off ph sz).1 := by
  unfold scanAfter
  split_ifs
  · exact Nat.le_refl sz
  · exact Nat.le_refl sz
  · exact le_scan _ _ _ _
  · exact Nat.le_refl sz

theorem afterAlloc_takes (hA : A.Exact) {k off : Nat} {ph : Proghdr}
    (ih : ∀ (s : Ram A) (off sz : Nat), Space trampoline s r tf (npages sz) none →
      Takes (loadLoop r file k off sz) s (need s.mem r (npages sz) (npages (scan file k off sz).1))
        (Loaded trampoline r tf sz s (scan file k off sz)))
    (h : Space trampoline s r tf (npages sz) none) (hend : ph.vaddr + uint32 ph.filesz ≤ sz) :
    Takes (afterAlloc r file k off ph sz) s (need s.mem r (npages sz) (npages (scanAfter file k off ph sz).1))
      (Loaded trampoline r tf sz s (scanAfter file k off ph sz)) := by
  have hstop : ∀ b, Takes (pure (sz, b)) s (need s.mem r (npages sz) (npages sz))
    (Loaded trampoline r tf sz s (sz, b)) := by
    intro b
    rw [need_self _ _ (le_rfl)]
    exact .pure (.stop h)
  unfold afterAlloc scanAfter
  by_cases hz : sz = 0
  · rw [if_pos hz, if_pos hz]
    exact hstop false
  · rw [if_neg hz, if_neg hz]
    by_cases hal : ph.vaddr % pgsize ≠ 0
    · rw [if_pos hal, if_pos hal]
      exact hstop false
    · rw [if_neg hal, if_neg hal]
      have hpages : ph.vaddr + uint32 ph.filesz ≤ npages sz * pgsize := by
        change _ ≤ (sz + 4096 - 1) / 4096 * 4096
        omega
      obtain ⟨s1, hrun, ht⟩ := loadseg_ok hA h (uint32 ph.off) file (not_not.mp hal) hpages
      refine .bind_ok hrun ?_ ht.st
      have hneed : ∀ m, need s1.mem r (npages sz) m = need s.mem r (npages sz) m := by
        intro m
        rw [need, need, missing_congr (h.touch_tables ht) fun π => dirsIn_length]
      cases hseg : segLoads file (uint32 ph.off) (uint32 ph.filesz) (uint32 ph.filesz / pgsize + 1) 0 with
      | true =>
        rw [← hneed]
        exact (ih s1 _ sz (h.touch ht)).mono fun res s2 h2 => .of_touches h ht h2
      | false =>
        rw [if_pos (by decide), if_neg (by decide), need_self _ _ (le_rfl)]
        exact .pure (.of_touches h ht (.stop (h.touch ht)))

/-- **The loop over the program headers** of `exec`. -/
theorem loadLoop_takes (hA : A.Exact) (file : List UInt8) (k : Nat) : ∀ (s : Ram A) (off sz : Nat),
    Space trampoline s r tf (npages sz) none →
    Takes (loadLoop r file k off sz) s (need s.mem r (npages sz) (npages (scan file k off sz).1))
      (Loaded trampoline r tf sz s (scan file k off sz)) := by
  induction k with
  | zero =>
    intro s off sz h
    rw [scan, need_self _ _ (le_rfl)]
    exact .pure (.stop h)
  | succ k ih =>
    intro s off sz h
    have hstop : ∀ b, Takes (pure (sz, b)) s (need s.mem r (npages sz) (npages sz))
        (Loaded trampoline r tf sz s (sz, b)) := by
      intro b
      rw [need_self _ _ (le_rfl)]
      exact .pure (.stop h)
    unfold loadLoop scan
    cases hph : readProghdr file off with
    | none => exact hstop false
    | some ph =>
      simp only
      by_cases htype : ph.type ≠ elfProgLoad
      · rw [if_pos htype, if_pos htype]
        exact ih s _ sz h
      · rw [if_neg htype, if_neg htype]
        by_cases hfile : ph.memsz < ph.filesz
        · rw [if_pos hfile, if_pos hfile]
          exact hstop false
        · rw [if_neg hfile, if_neg hfile]
          by_cases hwrap : wrap (ph.vaddr + ph.memsz) < ph.vaddr
          · rw [if_pos hwrap, if_pos hwrap]
            exact hstop false
          · rw [if_neg hwrap, if_neg hwrap]
            have hmemsz := readProghdr_memsz hph
            have hend : ph.vaddr + uint32 ph.filesz ≤ max sz (wrap (ph.vaddr + ph.memsz)) := by
              have h1 := uint32_le ph.filesz
              have h2 := Nat.le_max_right sz (wrap (ph.vaddr + ph.memsz))
              unfold wrap at hwrap h2 ⊢
              omega
            have hle := Nat.le_max_left sz (wrap (ph.vaddr + ph.memsz))
            have hle' := le_scanAfter file k off ph (max sz (wrap (ph.vaddr + ph.memsz)))
            refine (uvmalloc_takes hA (wrap (ph.vaddr + ph.memsz)) h).bind_sub
              (need_mono _ _ _ (npages_mono hle')) fun ret s1 hs1 => ?_
            obtain ⟨rfl, hsp, hx⟩ := hs1
            have htotal := hx.need_add (npages_mono hle) (npages_mono hle')
            exact ((afterAlloc_takes hA ih hsp hend).mono fun res s2 h₂ =>
              .of_builds hx.toBuilds hle hle' h₂).congr (Nat.eq_sub_of_add_eq' htotal)

/-! ## The guard page -/

theorem pte2pa_clear (w : Nat) : pte2pa (w &&& (2 ^ 64 - 1 - pteU)) = pte2pa w := by
  have hmask : (2 ^ 64 - 1 - pteU) >>> 10 = 2 ^ 54 - 1 := by decide
  rw [pte2pa, pte2pa, Nat.shiftRight_and_distrib, hmask, Nat.and_two_pow_sub_one_eq_mod, Nat.shiftLeft_eq,
    Nat.shiftLeft_eq, wrap, wrap]
  omega

theorem pteFlags_clear (w : Nat) : pteFlags (w &&& (2 ^ 64 - 1 - pteU)) = pteFlags w &&& 1007 := by
  rw [pteFlags, pteFlags, Nat.and_assoc, Nat.and_assoc]
  rfl

theorem testBit_clear (w : Nat) : (w &&& (2 ^ 64 - 1 - pteU)).testBit 0 = w.testBit 0 := by
  have hmask : Nat.testBit (2 ^ 64 - 1 - pteU) 0 = true := by decide
  rw [Nat.testBit_and, hmask, Bool.and_true]

theorem leaf_clear {w f : Nat} (h : leaf w = some (pa, f)) :
    leaf (w &&& (2 ^ 64 - 1 - pteU)) = some (pa, f &&& 1007) := by
  obtain ⟨hb, rfl, rfl⟩ := leaf_some h
  rw [leaf, testBit_clear, if_pos hb, pte2pa_clear, pteFlags_clear]

/-- What `uvmclear` does to the entry of the page `v`. -/
structure Clears (r v : Nat) (mem mem' : Nat → Page) : Prop where
  edits : Edits r mem mem'
  lookup : ∀ x < 2 ^ 27, lookup mem' r x =
    if x = v then (Vm.lookup mem r x).map fun e => (e.1, e.2 &&& 1007) else Vm.lookup mem r x

theorem Space.uvmclear_ok (h : Space trampoline s r tf n guard) (hv : v < n) :
    ∃ mem, uvmclear r (v * pgsize) s = .ok () ⟨mem, s.st⟩ ∧ Clears r v s.mem mem := by
  have hfits : n ≤ 2 ^ 26 - 2 := h.fits
  obtain ⟨f, hl, -⟩ := h.lookup_page hv
  have hl' := hl
  rw [lookup, Option.bind_eq_some_iff] at hl'
  obtain ⟨p, hp, hw⟩ := hl'
  have hwalk := walk_found (page_lt_maxva (show v < 2 ^ 26 by omega)) r s
  rw [page_div, hp] at hwalk
  refine ⟨Trie.put s.mem p (pxv 0 v) (s.mem p (pxv 0 v) &&& (2 ^ 64 - 1 - pteU)), ?_, .put h.table hp _ _, ?_⟩
  · unfold uvmclear
    rw [bind_of_ok hwalk]
    rfl
  · intro x hx
    rw [h.table.lookup_put hp (by omega) hx, leaf_clear hw]
    split_ifs with he
    · rw [he, hl]
      rfl
    · rfl

theorem Clears.upages {mem' : Nat → Page} (h : Clears r v mem mem') : upages mem' r = upages mem r := by
  ext q
  refine exists_congr fun x => and_congr_right fun hx => ?_
  have hx' : x < 2 ^ 26 - 2 := hx
  rw [h.lookup x (by omega)]
  split_ifs with he
  · constructor
    · rintro ⟨f, hf⟩
      obtain ⟨⟨pa, f'⟩, hl, he'⟩ := Option.map_eq_some_iff.mp hf
      cases he'
      exact ⟨f', hl⟩
    · rintro ⟨f, hf⟩
      exact ⟨f &&& 1007, by rw [hf]; rfl⟩
  · rfl

theorem UserLeaf.clear {f : Nat} (hu : UserLeaf s r tf guard v pa f)
    (ht : tables mem r = tables s.mem r) : UserLeaf ⟨mem, s.st⟩ r tf (some v) v pa (f &&& 1007) where
  held := hu.held
  apart := by
    change pa ∉ tables mem r
    rw [ht]
    exact hu.apart
  ne_tf := hu.ne_tf
  flags := lt_of_le_of_lt Nat.and_le_left hu.flags
  valid := by rw [Nat.testBit_and, hu.valid]; rfl
  leaf := by
    rw [Nat.and_assoc]
    exact hu.leaf
  user := .inr rfl

theorem Space.clear (h : Space trampoline s r tf n none) (hv : v < n)
    (hc : Clears r v s.mem mem) : Space trampoline ⟨mem, s.st⟩ r tf n (some v) := by
  have hfits : n ≤ 2 ^ 26 - 2 := h.fits
  have ht : tables mem r = tables s.mem r := hc.edits.tables
  have hother : ∀ x < 2 ^ 27, x ≠ v → lookup mem r x = lookup s.mem r x := fun x hx hne => by
    rw [hc.lookup x hx, if_neg hne]
  have hpa : ∀ x < n, ∀ pa f, lookup mem r x = some (pa, f) → ∃ f', lookup s.mem r x = some (pa, f') := by
    intro x hx pa f hl
    rw [hc.lookup x (by omega)] at hl
    split_ifs at hl
    · obtain ⟨⟨pa', f'⟩, hl', he⟩ := Option.map_eq_some_iff.mp hl
      cases he
      exact ⟨f', hl'⟩
    · exact ⟨f, hl⟩
  refine ⟨⟨hc.edits.table, ?_, ?_, ?_, h.fits, ?_, ?_, ?_, ?_⟩, h.tf_held⟩
  · change tables mem r ⊆ _
    rw [ht]
    exact h.held
  · exact (hother trampPage (by decide) (by unfold trampPage; omega)).trans h.tramp
  · exact (hother tfPage (by decide) (by unfold tfPage; omega)).trans h.trapframe
  · intro x hx hn h1 h2
    exact (hother x hx (by omega)).trans (h.empty x hx hn h1 h2)
  · intro x hx
    obtain ⟨f, hl, hu⟩ := h.lookup_page hx
    by_cases he : x = v
    · subst he
      refine ⟨_, f &&& 1007, ?_, hu.clear ht⟩
      change lookup mem r x = _
      rw [hc.lookup x (by omega), if_pos rfl, hl]
      rfl
    · refine ⟨_, f, (hother x (by omega) he).trans hl, hu.held, ?_, hu.ne_tf, hu.flags, hu.valid, hu.leaf,
        .inl (hu.user.resolve_right (Option.some_ne_none _).symm)⟩
      change _ ∉ tables mem r
      rw [ht]
      exact hu.apart
  · intro x hx x' hx' pa f f' hl hl'
    obtain ⟨g, hg⟩ := hpa x hx pa f hl
    obtain ⟨g', hg'⟩ := hpa x' hx' pa f' hl'
    exact h.inj x hx x' hx' pa g g' hg hg'
  · change tf ∉ tables mem r
    rw [ht]
    exact h.tf_apart

theorem Clears.builds (h : Clears r v s.mem mem) : Builds r ∅ s ⟨mem, s.st⟩ where
  held := Set.Subset.rfl
  owns := by
    rw [sdiff_self, Set.bot_eq_empty, Set.union_empty, Vm.owns]
    exact congrArg₂ _ h.edits.tables h.upages
  keep q _ hq := h.edits.keep q fun ht => hq (.inl ht)
  absent π hπ := by
    rw [show node ptr (⟨mem, s.st⟩ : Ram A).mem r π = _ from h.edits.node π hπ]
    exact ⟨fun h => ⟨h, Set.notMem_empty π⟩, fun h => h.1⟩

end

end InternetOs.Vm
