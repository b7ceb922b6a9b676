import InternetOs.Mem.BuddySteps

/-!
# What the functions of an allocator do to its blocks

    firstk n = some k:  k is the smallest order with n ≤ 2 ^ k * leaf          (firstk_spec)
    getPageIndex finds the page, sizeIndex the order of a block               (getPageIndex_spec, sizeIndex_spec)
    alloc takes one block of order firstk n out of the free ones              (alloc_spec)
    free gives a live block back and merges it as far as it goes              (freeAt_spec)
    addPage adds one free block                                               (putPage_spec)
-/

namespace InternetOs.Mem

open Option Labels Arena

namespace Buddy

section
variable {c : Buddy} {n : Int} {m : Nat}

/-! ## The order of a size -/

theorem firstkLoop_zero (hn : 0 < n) (fuel k : Nat) : firstkLoop n fuel k 0 = none := by
  induction fuel generalizing k with
  | zero => rfl
  | succ fuel ih =>
    unfold firstkLoop
    rw [if_pos hn]
    exact ih (k + 1)

/-- Once `size` has overflowed the loop does not end. -/
theorem firstkLoop_min (hn : 0 < n) (fuel k : Nat) : firstkLoop n fuel k (-2147483648) = none := by
  cases fuel with
  | zero => rfl
  | succ fuel =>
    unfold firstkLoop
    rw [if_pos (by omega)]
    exact firstkLoop_zero hn fuel (k + 1)

theorem bmod_double {e : Nat} (he : e ≤ 30) :
    Int.bmod (2 ^ e * 2) (2 ^ 32) = if e = 30 then -2147483648 else 2 ^ (e + 1) := by
  by_cases h : e = 30
  · subst h
    decide
  · rw [if_neg h, ← pow_succ]
    have hle : (2 : Int) ^ (e + 1) ≤ 2 ^ 30 := pow_le_pow_right₀ (by norm_num) (by omega)
    have hpos : (0 : Int) < 2 ^ (e + 1) := by positivity
    rw [Int.bmod_eq_of_le (by omega) (by omega)]

theorem firstkLoop_spec {r : Nat} (fuel : Nat) : ∀ k, m + k ≤ 30 → firstkLoop n fuel k (2 ^ (m + k)) = some r →
      n ≤ 2 ^ (m + r) ∧ m + r ≤ 30 ∧ k ≤ r ∧ (k < r → 2 ^ (m + r - 1) < n) := by
  induction fuel with
  | zero =>
    intro k _ h
    cases h
  | succ fuel ih =>
    intro k hk h
    unfold firstkLoop at h
    have hpos : (0 : Int) < 2 ^ (m + k) := by positivity
    split_ifs at h with hlt
    · rw [bmod_double hk] at h
      split_ifs at h with h30
      · rw [firstkLoop_min (by omega)] at h
        cases h
      · obtain ⟨h1, h2, h3, h4⟩ := ih (k + 1) (by omega) h
        refine ⟨h1, h2, by omega, fun _ => ?_⟩
        rcases Nat.lt_or_ge (k + 1) r with hr | hr
        · exact h4 hr
        · rw [show m + r - 1 = m + k by omega]
          exact hlt
    · rw [← some.inj h]
      exact ⟨by omega, hk, le_rfl, fun hc => absurd hc (lt_irrefl k)⟩

theorem firstkLoop_some {K : Nat} (hn : n ≤ 2 ^ (m + K)) (hK : m + K ≤ 30) (fuel : Nat) :
    ∀ k, k ≤ K → K - k < fuel → ∃ r ≤ K, firstkLoop n fuel k (2 ^ (m + k)) = some r := by
  induction fuel with
  | zero =>
    intro k _ hf
    omega
  | succ fuel ih =>
    intro k hk hf
    unfold firstkLoop
    by_cases hlt : (2 : Int) ^ (m + k) < n
    · have hne : k ≠ K := by
        rintro rfl
        omega
      rw [if_pos hlt, bmod_double (by omega), if_neg (by omega)]
      exact ih (k + 1) (by omega) (by omega)
    · rw [if_neg hlt]
      exact ⟨k, hk, rfl⟩

theorem blkSize_eq (hm : c.leaf = 2 ^ m) (k : Nat) : c.blkSize k = 2 ^ (m + k) := by
  unfold blkSize
  rw [hm, ← pow_add, add_comm]

/-- `firstk` gives the smallest order whose blocks hold `n` bytes. -/
theorem firstk_spec {k : Nat} (h : c.firstk n = some k) :
    n ≤ c.blkSize k ∧ (0 < k → (c.blkSize (k - 1) : Int) < n) := by
  obtain ⟨m, hm, -, hm30⟩ := c.leaf_pow
  have hleaf : (c.leaf : Int) = 2 ^ (m + 0) := by
    rw [hm]
    rfl
  unfold firstk at h
  rw [hleaf] at h
  obtain ⟨h1, -, -, h4⟩ := firstkLoop_spec 33 0 (by omega) h
  rw [blkSize_eq hm]
  refine ⟨by push_cast; exact h1, fun hk => ?_⟩
  rw [blkSize_eq hm, show m + (k - 1) = m + k - 1 by omega]
  exact h4 hk

theorem firstk_some {K : Nat} (hn : n ≤ c.blkSize K) (hK : c.blkSize K ≤ 2 ^ 30) :
    ∃ k ≤ K, c.firstk n = some k := by
  obtain ⟨m, hm, -, hm30⟩ := c.leaf_pow
  have hleaf : (c.leaf : Int) = 2 ^ (m + 0) := by
    rw [hm]
    rfl
  rw [blkSize_eq hm] at hn hK
  have hle : m + K ≤ 30 := (Nat.pow_le_pow_iff_right (by norm_num)).mp hK
  unfold firstk
  rw [hleaf]
  exact firstkLoop_some hn hle 33 0 (Nat.zero_le K) (by omega)

end

/-! ## Finding a block again -/

section
variable {c : Buddy} {ι : Type} {H : c.Heads ι} {plist : Nat → Pagelist} {count : Nat}
  {L : Labels Nat} {F : ι → List Nat} {pg k i p : Nat}

/-- The page of an address is found: the offsets to the pages before it are negative or too large. -/
theorem Owns.getPageIndex_spec (h : Owns c H plist count L F) (hpg : pg < count)
    (hlo : (plist pg).pageaddr ≤ p) (hhi : p < (plist pg).pageaddr + c.pageSize) :
    c.getPageIndex plist p = some pg := by
  have hram := h.ram pg hpg
  -- no page is further away than the RAM is large
  have hoff : ∀ j < count, Int.bmod ((p : Int) - ((plist j).pageaddr : Int)) (2 ^ 32) =
      (p : Int) - ((plist j).pageaddr : Int) := by
    intro j hj
    have hr := h.ram j hj
    have hk : kernbase = 2147483648 := rfl
    have hs : phystop = 2281701376 := rfl
    rw [Int.bmod_eq_of_le (by omega) (by omega)]
  have loop : ∀ fuel j, j ≤ pg → pg < j + fuel → c.getPageIndexLoop plist p fuel j = some pg := by
    intro fuel
    induction fuel with
    | zero =>
      intro j h1 h2
      omega
    | succ fuel ih =>
      intro j h1 h2
      have hj : j < count := by omega
      unfold getPageIndexLoop
      have hused := (h.used j).mpr hj
      rw [if_neg (by rintro ⟨-, hc⟩; exact hused hc)]
      rw [hoff j hj]
      by_cases he : j = pg
      · subst he
        rw [if_pos (by constructor <;> omega)]
      · rw [if_neg]
        · exact ih (j + 1) (by omega) (by omega)
        · have hd := h.disj j hj pg hpg he
          omega
  exact loop c.npages 0 (Nat.zero_le pg) (by have := h.count_le; omega)

theorem blkIndex_add (c : Buddy) (j d p base : Nat) : c.blkIndex (j + d) p base = c.blkIndex j p base / 2 ^ d := by
  induction d with
  | zero => simp
  | succ d ih =>
    rw [← add_assoc, blkIndex_succ, ih, Nat.div_div_eq_div_mul, pow_succ]

/-- The order of a block that is not split is read off the split bits around it. -/
theorem Owns.sizeIndex_spec (h : Owns c H plist count L F) (hb : (L pg k i).Whole)
    (hp : p = c.addr k i (plist pg).pageaddr) : c.sizeIndex (plist pg) p = k := by
  have hk : k ≤ c.maxSize := h.wf.le_top hb.ne.1
  have hns := c.lt_nsizes hk
  have hidx : c.blkIndex k p (plist pg).pageaddr = i := by
    rw [hp]
    exact c.blkIndex_addr _ _ _
  have loop : ∀ fuel j, j ≤ k → j + fuel = c.nsizes → c.sizeIndexLoop (plist pg) p fuel j = k := by
    intro fuel
    induction fuel with
    | zero =>
      intro j h1 h2
      omega
    | succ fuel ih =>
      intro j h1 h2
      unfold sizeIndexLoop
      rcases Nat.lt_or_ge j k with hj | hj
      · -- at or below the block nothing is split
        have hidx' : c.blkIndex (j + 1) p (plist pg).pageaddr / 2 ^ (k - (j + 1)) = i := by
          rw [← blkIndex_add, show j + 1 + (k - (j + 1)) = k by omega]
          exact hidx
        have hno : L pg (j + 1) (c.blkIndex (j + 1) p (plist pg).pageaddr) ≠ .split := by
          rcases Nat.lt_or_ge (j + 1) k with hj' | hj'
          · rw [h.wf.below hb.ne.2 hj' hk hidx']
            decide
          · have he : j + 1 = k := by omega
            rw [he] at hidx' ⊢
            rw [hidx]
            exact hb.ne.2
        rw [if_neg]
        · exact ih (j + 1) hj (by omega)
        · intro hc
          exact hno ((h.split _ _ _ (by omega) (by omega)).mp hc)
      · have he : j = k := by omega
        subst he
        rcases Nat.lt_or_ge j c.maxSize with hm | hm
        · -- the parent is split
          have hpar := h.wf.parent hb.ne.1 hm
          rw [← hidx, ← blkIndex_succ] at hpar
          rw [if_pos ((h.split _ _ _ (by omega) (by omega)).mpr hpar)]
        · have hf : fuel = 0 := by
            unfold maxSize at hm hk
            omega
          subst hf
          unfold sizeIndexLoop
          split_ifs
          · rfl
          · omega
  exact loop c.nsizes 0 (Nat.zero_le k) (by omega)

end

/-! ## Allocation and release -/

section
variable {c : Buddy} {ι : Type} {H : c.Heads ι} {count : Nat} {a : Arena}

/-- What one call leaves alone: the pages, the bits of `split[0]`, the other lists and the live
blocks. -/
structure Kept (H : c.Heads ι) (a a' : Arena) (L L' : Labels Nat) (F F' : ι → List Nat) : Prop where
  base : ∀ pg, (a'.plist pg).pageaddr = (a.plist pg).pageaddr
  mark : ∀ pg i, (a'.plist pg).split 0 i = (a.plist pg).split 0 i
  foreign : ∀ x, (∀ k, x ≠ H.r k) → F' x = F x
  live : ∀ pg k i, L' pg k i = .live ↔ L pg k i = .live

theorem Kept.refl (a : Arena) (L : Labels Nat) (F : ι → List Nat) : Kept H a a L L F F :=
  ⟨fun _ => rfl, fun _ _ => rfl, fun _ _ => rfl, fun _ _ _ => Iff.rfl⟩

theorem Kept.trans {a' a'' : Arena} {L L' L'' : Labels Nat} {F F' F'' : ι → List Nat}
    (h : Kept H a a' L L' F F') (h' : Kept H a' a'' L' L'' F' F'') : Kept H a a'' L L'' F F'' where
  base pg := (h'.base pg).trans (h.base pg)
  mark pg i := (h'.mark pg i).trans (h.mark pg i)
  foreign x hx := (h'.foreign x hx).trans (h.foreign x hx)
  live pg k i := (h'.live pg k i).trans (h.live pg k i)

/-- The hole is this block and no other. -/
def HoleAt (L : Labels Nat) (pg k i : Nat) : Prop :=
  ∀ pg' k' i', L pg' k' i' = .hole ↔ pg' = pg ∧ k' = k ∧ i' = i

/-- No block is held. -/
def NoHole (L : Labels Nat) : Prop := ∀ pg k i, L pg k i ≠ .hole

theorem HoleAt.hole {L : Labels Nat} {pg k i : Nat} (h : HoleAt L pg k i) : L pg k i = .hole :=
  (h pg k i).mpr ⟨rfl, rfl, rfl⟩

theorem HoleAt.set {L : Labels Nat} {pg k i : Nat} (h : HoleAt L pg k i) {v : Label} (hv : v ≠ .hole) :
    NoHole (L.set pg k i v) := by
  intro pg' k' i' hc
  obtain ⟨hc, hne⟩ := (set_eq_iff_and hv).mp hc
  exact hne ((h ..).mp hc)

theorem NoHole.set {L : Labels Nat} (h : NoHole L) (pg k i : Nat) : HoleAt (L.set pg k i .hole) pg k i := by
  intro pg' k' i'
  rw [set_eq_self_iff]
  exact or_iff_right (h pg' k' i')

theorem firstFree_spec {m : Links} {F : ι → List Nat} (hr : m.Rings H.s F) (fuel : Nat) :
    ∀ k, k + fuel = c.nsizes → (c.nsizes ≤ c.firstFree m fuel k ∧ ∀ kf : Fin c.nsizes, k ≤ kf → F (H.r kf) = []) ∨
      ∃ kf : Fin c.nsizes, c.firstFree m fuel k = kf ∧ k ≤ kf ∧ F (H.r kf) ≠ [] := by
  induction fuel with
  | zero =>
    intro k hk
    refine .inl ⟨by unfold firstFree; omega, fun kf hkf => ?_⟩
    omega
  | succ fuel ih =>
    intro k hk
    have hlt : k < c.nsizes := by omega
    have hiff := lstEmpty_iff hr (H.r ⟨k, hlt⟩)
    rw [H.head] at hiff
    by_cases he : lstEmpty (c.freelist k) m = true
    · have hstep : c.firstFree m (fuel + 1) k = c.firstFree m fuel (k + 1) := if_pos he
      rw [hstep]
      rcases ih (k + 1) (by omega) with ⟨h1, h2⟩ | ⟨kf, h1, h2, h3⟩
      · refine .inl ⟨h1, fun kf hkf => ?_⟩
        by_cases hc : (kf : Nat) = k
        · have : kf = ⟨k, hlt⟩ := Fin.ext hc
          rw [this]
          exact hiff.mp he
        · exact h2 kf (by omega)
      · exact .inr ⟨kf, h1, by omega, h3⟩
    · have hstep : c.firstFree m (fuel + 1) k = k := if_neg he
      exact .inr ⟨⟨k, hlt⟩, hstep, le_rfl, fun hc => he (hiff.mpr hc)⟩

/-- `bd_addpage` takes the first unused entry; without one it panics. -/
theorem addPage_eq {L : Labels Nat} {F : ι → List Nat} {p : Nat} (h : Rep c H a count L F) :
    c.addPage p a = if count < c.npages then c.putPage p count a else none := by
  have loop : ∀ fuel j, j ≤ count → j + fuel = c.npages →
      c.addPageLoop p a fuel j = if count < c.npages then c.putPage p count a else none := by
    intro fuel
    induction fuel with
    | zero =>
      intro j hj hf
      rw [if_neg (by omega)]
      rfl
    | succ fuel ih =>
      intro j hj hf
      unfold addPageLoop
      have hused := h.used j
      by_cases he : j = count
      · subst he
        rw [if_pos (by by_contra hc; exact absurd (hused.mp hc) (lt_irrefl _)), if_pos (by omega)]
      · rw [if_neg (hused.mpr (by omega))]
        exact ih (j + 1) (by omega) (by omega)
  exact loop c.npages 0 (Nat.zero_le _) (by omega)

variable [DecidableEq ι]

theorem splitDown_spec {pg fk p : Nat} (k : Nat) :
    ∀ (a : Arena) (L : Labels Nat) (F : ι → List Nat) (i : Nat), Rep c H a count L F →
      HoleAt L pg k i → p = c.addr k i (a.plist pg).pageaddr →
      (k < c.maxSize → (a.plist pg).alloc k i = true) → fk ≤ k →
      ∃ a' L' F' j, c.splitDown pg fk p k a = some a' ∧ Rep c H a' count L' F' ∧ HoleAt L' pg fk j ∧
        p = c.addr fk j (a'.plist pg).pageaddr ∧ (fk < c.maxSize → (a'.plist pg).alloc fk j = true) ∧
        Kept H a a' L L' F F' ∧ a'.mem p = a.mem p := by
  induction k with
  | zero =>
    intro a L F i h hole hp halloc hfk
    obtain rfl : fk = 0 := by omega
    exact ⟨a, L, F, i, rfl, h, hole, hp, halloc, .refl .., rfl⟩
  | succ k ih =>
    intro a L F i h hole hp halloc hfk
    unfold splitDown
    by_cases hlt : fk < k + 1
    · rw [if_pos hlt]
      have hidx1 : c.blkIndex (k + 1) p (a.plist pg).pageaddr = i := by
        rw [hp]
        exact c.blkIndex_addr ..
      have hidx : c.blkIndex k p (a.plist pg).pageaddr = 2 * i := by
        rw [hp, c.addr_succ]
        exact c.blkIndex_addr ..
      have hq : p + c.blkSize k = c.addr k (2 * i + 1) (a.plist pg).pageaddr := by
        rw [hp]
        exact c.addr_upper ..
      have hhalf := h.wf.half_absent hole.hole
      obtain ⟨m', F', hpush, hrep, hF⟩ := h.splitHole hole.hole halloc
      -- the lower half keeps the node at its start
      have hnode : m' p = a.mem p := by
        have hk : k < c.nsizes := by
          have := h.wf.le_top (show L pg (k + 1) i ≠ .absent by rw [hole.hole]; decide)
          exact c.lt_nsizes (by omega)
        have hpos := c.blkSize_pos k
        refine h.push_other (j := ⟨k, hk⟩) hole.hole (hp ▸ c.inBlk_addr _ _ _) hpush ?_
        omega
      dsimp only
      rw [hidx1, hidx, hq, mem_setAlloc, mem_setSplit, hpush]
      have hole' : HoleAt (L.splitHole pg k i) pg k (2 * i) := by
        intro pg' k' i'
        rw [splitHole_hole hhalf, hole]
        tauto
      obtain ⟨a', L', F'', j, hrun, hrep', hole'', hp', halloc', hkept, hsame⟩ :=
        ih _ _ _ (2 * i) hrep hole' (by
          show p = c.addr k (2 * i)
            (((a.setSplit pg (k + 1) i true).setAlloc pg k (2 * i) true).plist pg).pageaddr
          rw [pageaddr_setAlloc, pageaddr_setSplit, hp, c.addr_succ]) (by
          intro _
          show (((a.setSplit pg (k + 1) i true).setAlloc pg k (2 * i) true).plist pg).alloc k (2 * i) = true
          rw [alloc_setAlloc, if_pos ⟨rfl, rfl, rfl⟩]) (by omega)
      refine ⟨a', L', F'', j, hrun, hrep', hole'', hp', halloc', Kept.trans ?_ hkept, hsame.trans hnode⟩
      refine ⟨fun pg' => ?_, fun pg' j' => ?_, hF, fun pg' k' i' => splitHole_live hole.hole hhalf⟩
      · show (((a.setSplit pg (k + 1) i true).setAlloc pg k (2 * i) true).plist pg').pageaddr = _
        rw [pageaddr_setAlloc, pageaddr_setSplit]
      · show (((a.setSplit pg (k + 1) i true).setAlloc pg k (2 * i) true).plist pg').split 0 j' = _
        rw [split_setAlloc, split_setSplit, if_neg (by omega)]
    · rw [if_neg hlt]
      obtain rfl : fk = k + 1 := by omega
      exact ⟨a, L, F, i, rfl, h, hole, hp, halloc, .refl .., rfl⟩

/-- The pointers of a node lead to the head of the list or to its elements. -/
def OnList (s : Nat) (l : List Nat) (d : Node) : Prop := (d.prev = s ∨ d.prev ∈ l) ∧ (d.next = s ∨ d.next ∈ l)

/-- A block of order `fk` has been taken out of the free ones. -/
structure Taken (H : c.Heads ι) (count : Nat) (a a' : Arena) (L : Labels Nat) (F : ι → List Nat)
    (fk p : Nat) (pg i : Nat) (L' : Labels Nat) (F' : ι → List Nat) : Prop where
  rep : Rep c H a' count L' F'
  none : NoHole L'
  addr : p = c.addr fk i (a.plist pg).pageaddr
  base : ∀ pg, (a'.plist pg).pageaddr = (a.plist pg).pageaddr
  mark : ∀ pg i, (a'.plist pg).split 0 i = (a.plist pg).split 0 i
  foreign : ∀ x, (∀ k, x ≠ H.r k) → F' x = F x
  fresh : L pg fk i ≠ .live
  live : ∀ pg' k' i', L' pg' k' i' = .live ↔ L pg' k' i' = .live ∨ (pg' = pg ∧ k' = fk ∧ i' = i)
  /-- The block comes with the pointers that it had in its list. -/
  node : ∃ k : Fin c.nsizes, OnList (H.s (H.r k)) (F (H.r k)) (a'.mem p)

/-- **Allocation.**  Without a free block of the order or a larger one the result is null and
nothing changes; otherwise a block of exactly that order is handed out. -/
theorem alloc_spec {L : Labels Nat} {F : ι → List Nat} {n : Int} {fk : Nat}
    (h : Rep c H a count L F) (hno : NoHole L) (hfk : c.firstk n = some fk) :
    (c.alloc n a = some (0, a) ∧ ∀ kf : Fin c.nsizes, fk ≤ kf → F (H.r kf) = []) ∨
    ∃ p a' pg i L' F', c.alloc n a = some (p, a') ∧ p ≠ 0 ∧ Taken H count a a' L F fk p pg i L' F' := by
  have hsearch := firstFree_spec h.rings (c.nsizes - fk) fk
  unfold alloc
  rw [hfk]
  dsimp only [bind_eq_bind, bind_some]
  by_cases hle : fk ≤ c.nsizes
  · rcases hsearch (by omega) with ⟨h1, h2⟩ | ⟨kf, h1, h2, h3⟩
    · rw [if_pos h1]
      exact .inl ⟨rfl, h2⟩
    · right
      rw [h1, if_neg (by omega)]
      obtain ⟨e, l, hF⟩ := List.exists_cons_of_ne_nil h3
      obtain ⟨pg, i, m', he, hfree, hpop, hrep, hnode⟩ := h.pop kf hF
      have hpres : L pg kf i ≠ .absent := by
        rw [hfree]
        decide
      have he0 : e ≠ 0 := by
        rw [he]
        exact h.addr_pos hpres
      obtain ⟨hpg, hlo, hhi⟩ := h.inPage hpres (c.inBlk_addr _ _ _)
      rw [← he] at hlo hhi
      have hidx : c.blkIndex kf e (a.plist pg).pageaddr = i := by
        rw [he]
        exact c.blkIndex_addr ..
      rw [hpop]
      dsimp only [bind_some]
      rw [if_neg he0, h.getPageIndex_spec hpg hlo hhi]
      dsimp only [bind_some]
      rw [hidx]
      have hole := hno.set pg kf i
      obtain ⟨a', L', F', j, hrun, hrep', hole', hp', halloc', hkept, hsame⟩ :=
        splitDown_spec (p := e) kf _ _ _ i (hrep.setAlloc hole.hole true) hole
          (by rw [pageaddr_setAlloc]; exact he)
          (fun _ => by rw [alloc_setAlloc, if_pos ⟨rfl, rfl, rfl⟩]) h2
      rw [hrun]
      have hbase : ∀ pg', (a'.plist pg').pageaddr = (a.plist pg').pageaddr := by
        intro pg'
        rw [hkept.base, pageaddr_setAlloc]
      refine ⟨e, a', pg, j, L'.set pg fk j .live, F', rfl, he0, ?_⟩
      have hrel : Rep c H a' count (L'.set pg fk j .live) F' :=
        hrep'.relabel (.inr hole'.hole) (.inl rfl) (fun _ => halloc')
          (fun _ _ _ _ hc => by cases hc)
      have holdlive : ∀ pg' k' i', L' pg' k' i' = .live ↔ L pg' k' i' = .live := by
        intro pg' k' i'
        rw [hkept.live, set_eq_iff_of_ne (by decide) (by rw [hfree]; decide)]
      refine ⟨hrel, hole'.set (by decide), ?_, hbase, ?_, ?_, ?_, ?_, kf, ?_⟩
      · rw [hp', hbase]
      · intro pg' i'
        rw [hkept.mark, split_setAlloc]
      · intro x hx
        rw [hkept.foreign x hx, Function.update_of_ne (hx kf)]
      · rw [Ne, ← holdlive, hole'.hole]
        decide
      · intro pg' k' i'
        rw [set_eq_self_iff, holdlive]
      · rw [hsame, mem_setAlloc]
        dsimp only
        rw [hnode]
        exact InternetOs.Rings.neighbours h.rings (hF ▸ List.mem_cons_self)
  · have hzero : c.nsizes - fk = 0 := by omega
    rw [hzero]
    have hval : c.firstFree a.mem 0 fk = fk := rfl
    rw [if_pos (by omega)]
    refine .inl ⟨rfl, fun kf hkf => ?_⟩
    omega

/-- The loop of `bd_free` ends at the root or next to a buddy that is in use. -/
theorem mergeUp_spec {pg : Nat} (fuel : Nat) :
    ∀ (k i : Nat) (a : Arena) (L : Labels Nat) (F : ι → List Nat), k + fuel = c.maxSize →
      Rep c H a count L F → HoleAt L pg k i →
      ∃ k' j a' L' F', c.mergeUp pg fuel k (c.addr k i (a.plist pg).pageaddr) a =
          some (k', c.addr k' j (a'.plist pg).pageaddr, a') ∧
        Rep c H a' count L' F' ∧ HoleAt L' pg k' j ∧
        (k' < c.maxSize → (a'.plist pg).alloc k' j = false ∧ L' pg k' (buddyOf j) ≠ .free) ∧
        Kept H a a' L L' F F' := by
  induction fuel with
  | zero =>
    intro k i a L F hk h hole
    exact ⟨k, i, a, L, F, rfl, h, hole, fun hc => absurd hc (by omega), .refl ..⟩
  | succ fuel ih =>
    intro k i a L F hk h hole
    have hlt : k < c.maxSize := by omega
    have hidx : c.blkIndex k (c.addr k i (a.plist pg).pageaddr) (a.plist pg).pageaddr = i :=
      c.blkIndex_addr ..
    have hcl := h.setAlloc hole.hole false
    have hone : L pg k (buddyOf i) ≠ .hole := by
      intro hc
      exact buddyOf_ne i ((hole ..).mp hc).2.2
    have hbit : ((a.setAlloc pg k i false).plist pg).alloc k i = false := by
      rw [alloc_setAlloc, if_pos ⟨rfl, rfl, rfl⟩]
    unfold mergeUp
    dsimp only
    rw [hidx]
    by_cases hb : ((a.setAlloc pg k i false).plist pg).alloc k (buddyOf i) = true
    · rw [if_pos hb]
      refine ⟨k, i, _, L, F, by rw [pageaddr_setAlloc], hcl, hole, fun _ => ⟨hbit, ?_⟩, ?_⟩
      · intro hc
        rcases (hcl.alloc pg k _ hlt hone).mp hb with h1 | h1 <;> rw [hc] at h1 <;> cases h1
      · exact ⟨fun pg' => by rw [pageaddr_setAlloc], fun pg' j => by rw [split_setAlloc],
          fun _ _ => rfl, fun _ _ _ => Iff.rfl⟩
    · rw [if_neg hb]
      obtain ⟨hfree, m', F', hrem, hrep, hF⟩ :=
        hcl.mergeHole hlt hole.hole hone hbit (Bool.eq_false_iff.mpr hb)
      rw [pageaddr_setAlloc] at hrem
      rw [hrem]
      -- the merged block starts where the lower half does
      have hp : (if buddyOf i % 2 = 0 then c.addr k (buddyOf i) (a.plist pg).pageaddr
          else c.addr k i (a.plist pg).pageaddr) = c.addr (k + 1) (i / 2) (a.plist pg).pageaddr := by
        rw [c.addr_succ]
        rcases Nat.mod_two_eq_zero_or_one i with hi | hi
        · have hbu : buddyOf i = i + 1 := if_pos hi
          have hhalf : 2 * (i / 2) = i := by omega
          rw [if_neg (by omega), hhalf]
        · have hbu : buddyOf i = i - 1 := if_neg (by omega)
          have hhalf : 2 * (i / 2) = i - 1 := by omega
          rw [hbu, if_pos (by omega), hhalf]
      rw [hp, c.blkIndex_addr]
      have hpar := h.wf.parent (by rw [hole.hole]; decide) hlt
      have hole' : HoleAt (L.mergeHole pg k i) pg (k + 1) (i / 2) := by
        intro pg' k' i'
        rw [mergeHole_hole hfree, hole]
        tauto
      obtain ⟨k', j, a', L', F'', hrun, hrep', hole'', hstop, hkept⟩ :=
        ih (k + 1) (i / 2) _ _ _ (by omega) hrep hole'
      rw [pageaddr_setSplit, pageaddr_setAlloc, pageaddr_setAlloc] at hrun
      refine ⟨k', j, a', L', F'', hrun, hrep', hole'', hstop, Kept.trans ?_ hkept⟩
      refine ⟨fun pg' => ?_, fun pg' j' => ?_, hF, fun pg' k'' i' =>
        mergeHole_live hole.hole hfree hpar⟩
      · rw [pageaddr_setSplit, pageaddr_setAlloc, pageaddr_setAlloc]
      · rw [split_setSplit, if_neg (by omega), split_setAlloc, split_setAlloc]

/-- A live block has been given back. -/
structure Released (H : c.Heads ι) (count : Nat) (a a' : Arena) (L : Labels Nat) (F : ι → List Nat)
    (pg k i : Nat) (L' : Labels Nat) (F' : ι → List Nat) : Prop where
  rep : Rep c H a' count L' F'
  none : NoHole L'
  base : ∀ pg, (a'.plist pg).pageaddr = (a.plist pg).pageaddr
  mark : ∀ pg i, (a'.plist pg).split 0 i = (a.plist pg).split 0 i
  foreign : ∀ x, (∀ k, x ≠ H.r k) → F' x = F x
  live : ∀ pg' k' i', L' pg' k' i' = .live ↔ L pg' k' i' = .live ∧ ¬ (pg' = pg ∧ k' = k ∧ i' = i)

/-- **Release.**  A live block without foreign nodes is taken back, whatever its neighbours are. -/
theorem freeAt_spec {L : Labels Nat} {F : ι → List Nat} {pg k i p : Nat}
    (h : Rep c H a count L F) (hno : NoHole L) (hb : L pg k i = .live) (hp : p = c.addr k i (a.plist pg).pageaddr)
    (hfor : ∀ x, (∀ k, x ≠ H.r k) → ∀ e ∈ F x, ¬ c.InBlk (a.plist pg).pageaddr k i e) :
    ∃ a' L' F', c.freeAt p pg a = some a' ∧ Released H count a a' L F pg k i L' F' := by
  have hpres : L pg k i ≠ .absent := by
    rw [hb]
    decide
  have hk : k ≤ c.maxSize := h.wf.le_top hpres
  have hrep := h.relabel (v := .hole) (.inl hb) (.inr rfl) (by intro hc; cases hc)
    (fun x hx e he _ => hfor x hx e he)
  obtain ⟨k', j, a', L', F', hrun, hrep', hole', hstop, hkept⟩ :=
    mergeUp_spec (c.maxSize - k) k i a _ F (by omega) hrep (hno.set pg k i)
  have hk' : k' ≤ c.maxSize := hrep'.wf.le_top (by rw [hole'.hole]; decide)
  obtain ⟨m', hpush, hrep''⟩ := hrep'.push ⟨k', c.lt_nsizes hk'⟩ hole'.hole hstop
  refine ⟨_, _, _, ?_, hrep'', hole'.set (by decide), hkept.base, hkept.mark, ?_, ?_⟩
  · unfold freeAt
    rw [h.sizeIndex_spec (.inr (.inl hb)) hp, hp]
    dsimp only
    rw [hrun]
    dsimp only [bind_eq_bind, bind_some]
    rw [hpush]
    rfl
  · intro x hx
    rw [Function.update_of_ne (hx _)]
    exact hkept.foreign x hx
  · intro pg' k'' i'
    rw [set_eq_iff_of_ne (by decide) (by rw [hole'.hole]; decide), hkept.live, set_eq_iff_and (by decide)]

/-- A page has been added and is free as a whole. -/
structure Added (H : c.Heads ι) (count : Nat) (a a' : Arena) (L : Labels Nat) (F : ι → List Nat)
    (p : Nat) (L' : Labels Nat) (F' : ι → List Nat) : Prop where
  rep : Rep c H a' (count + 1) L' F'
  none : NoHole L'
  base : ∀ pg, (a'.plist pg).pageaddr = if pg = count then p else (a.plist pg).pageaddr
  mark : ∀ pg i, (a'.plist pg).split 0 i = (a.plist pg).split 0 i
  foreign : ∀ x, (∀ k, x ≠ H.r k) → F' x = F x
  live : ∀ pg' k' i', L' pg' k' i' = .live ↔ L pg' k' i' = .live
  root : L' count c.maxSize 0 = .free

theorem putPage_spec {L : Labels Nat} {F : ι → List Nat} {p : Nat}
    (h : Rep c H a count L F) (hno : NoHole L) (hnew : NewPage c H a count F p) :
    ∃ a' L' F', c.putPage p count a = some a' ∧ Added H count a a' L F p L' F' := by
  have hrep := h.enterPage hnew
  have hole := hno.set count c.maxSize 0
  have hns := c.lt_nsizes (le_refl c.maxSize)
  obtain ⟨m', hpush, hrep'⟩ := hrep.push ⟨c.maxSize, hns⟩ hole.hole (fun hc => absurd hc (lt_irrefl _))
  have haddr : c.addr c.maxSize 0 p = p := by
    unfold addr
    omega
  rw [pageaddr_setPage_self, haddr] at hpush hrep'
  refine ⟨_, _, _, ?_, hrep', hole.set (by decide), ?_, ?_, ?_, ?_, set_self ..⟩
  · unfold putPage
    dsimp only
    rw [hpush]
    rfl
  · exact fun pg => a.pageaddr_setPage count pg p
  · exact fun pg i => congrFun (congrFun (a.split_setPage count pg p) 0) i
  · intro x hx
    exact Function.update_of_ne (hx _) ..
  · intro pg' k' i'
    have hroot : L count c.maxSize 0 ≠ .live := by
      intro hc
      have := (h.page count).mp (by rw [hc]; decide)
      omega
    rw [set_eq_iff_of_ne (by decide) (by rw [set_self]; decide), set_eq_iff_of_ne (by decide) hroot]

end

end Buddy

end InternetOs.Mem
