import InternetOs.Mem.BuddyRep

/-!
# The statements of the allocators as steps on labels

Every statement of `bd_alloc` and `bd_free` that changes a table or a list keeps `Rep`, for
the labels changed as the buddy system says.  The alloc bit of the hole is free to change.
-/

namespace InternetOs.Mem

open Function Labels Arena

namespace Arena

variable (a : Arena) (pg k i pg' k' i' : Nat) (v : Bool)

/-- What the new entry has in common with the old one is common to the whole table. -/
theorem frame_setPage {β : Type} (f : Pagelist → β) {page : Pagelist} (h : f page = f (a.plist pg)) :
    f ((a.setPage pg page).plist pg') = f (a.plist pg') := by
  unfold setPage
  by_cases hpg : pg' = pg
  · subst hpg
    simp [h]
  · simp [update_of_ne hpg]

@[simp] theorem pageaddr_setAlloc : ((a.setAlloc pg k i v).plist pg').pageaddr = (a.plist pg').pageaddr :=
  a.frame_setPage pg pg' Pagelist.pageaddr rfl

@[simp] theorem split_setAlloc : ((a.setAlloc pg k i v).plist pg').split = (a.plist pg').split :=
  a.frame_setPage pg pg' Pagelist.split rfl

theorem alloc_setAlloc : ((a.setAlloc pg k i v).plist pg').alloc k' i' =
    if pg' = pg ∧ k' = k ∧ i' = i then v else (a.plist pg').alloc k' i' := by
  unfold setAlloc setPage
  by_cases h : pg' = pg
  · subst h
    simp
  · simp [h]

@[simp] theorem pageaddr_setSplit : ((a.setSplit pg k i v).plist pg').pageaddr = (a.plist pg').pageaddr :=
  a.frame_setPage pg pg' Pagelist.pageaddr rfl

@[simp] theorem alloc_setSplit : ((a.setSplit pg k i v).plist pg').alloc = (a.plist pg').alloc :=
  a.frame_setPage pg pg' Pagelist.alloc rfl

theorem split_setSplit : ((a.setSplit pg k i v).plist pg').split k' i' =
    if pg' = pg ∧ k' = k ∧ i' = i then v else (a.plist pg').split k' i' := by
  unfold setSplit setPage
  by_cases h : pg' = pg
  · subst h
    simp
  · simp [h]

section
variable (p : Nat)

theorem pageaddr_setPage : ((a.setPage pg { a.plist pg with pageaddr := p }).plist pg').pageaddr =
    if pg' = pg then p else (a.plist pg').pageaddr := by
  unfold setPage
  by_cases h : pg' = pg
  · simp [h]
  · simp [h]

theorem pageaddr_setPage_self : ((a.setPage pg { a.plist pg with pageaddr := p }).plist pg).pageaddr = p := by
  rw [pageaddr_setPage, if_pos rfl]

theorem pageaddr_setPage_of_ne (h : pg' ≠ pg) :
    ((a.setPage pg { a.plist pg with pageaddr := p }).plist pg').pageaddr = (a.plist pg').pageaddr := by
  rw [pageaddr_setPage, if_neg h]

theorem split_setPage : ((a.setPage pg { a.plist pg with pageaddr := p }).plist pg').split = (a.plist pg').split :=
  a.frame_setPage pg pg' Pagelist.split rfl

theorem alloc_setPage : ((a.setPage pg { a.plist pg with pageaddr := p }).plist pg').alloc = (a.plist pg').alloc :=
  a.frame_setPage pg pg' Pagelist.alloc rfl

end

@[simp] theorem mem_setAlloc : (a.setAlloc pg k i v).mem = a.mem := rfl

@[simp] theorem mem_setSplit : (a.setSplit pg k i v).mem = a.mem := rfl

end Arena

namespace Buddy

variable {c : Buddy} {ι : Type} {H : c.Heads ι} {count : Nat} {L L' : Labels Nat}
  {F F' : ι → List Nat} {pg k i : Nat}

theorem Owns.retable {plist plist' : Nat → Pagelist} (h : Owns c H plist count L F)
    (hbase : ∀ pg, (plist' pg).pageaddr = (plist pg).pageaddr) (hwf : L'.WF c.maxSize)
    (hroot : ∀ pg, L' pg c.maxSize 0 = .absent ↔ L pg c.maxSize 0 = .absent)
    (hsplit : ∀ pg k i, 0 < k → k ≤ c.maxSize → ((plist' pg).split k i = true ↔ L' pg k i = .split))
    (halloc : ∀ pg k i, k < c.maxSize → L' pg k i ≠ .hole →
      ((plist' pg).alloc k i = true ↔ L' pg k i = .live ∨ L' pg k i = .split))
    (hlists : ∀ k e, e ∈ F' (H.r k) ↔ ∃ pg i, L' pg k i = .free ∧ e = c.addr k i (plist pg).pageaddr) :
    Owns c H plist' count L' F' where
  wf := hwf
  count_le := h.count_le
  page pg := by rw [Ne, hroot]; exact h.page pg
  used pg := by rw [hbase]; exact h.used pg
  ram pg hpg := by rw [hbase]; exact h.ram pg hpg
  low pg hpg := by rw [hbase]; exact h.low pg hpg
  disj pg hpg pg' hpg' hne := by rw [hbase, hbase]; exact h.disj pg hpg pg' hpg' hne
  split := hsplit
  alloc := halloc
  lists k e := by
    rw [hlists]
    constructor
    · rintro ⟨pg, i, hf, he⟩
      exact ⟨pg, i, hf, by rw [hbase]; exact he⟩
    · rintro ⟨pg, i, hf, he⟩
      exact ⟨pg, i, hf, by rw [hbase] at he; exact he⟩

/-- A whole block gets another label, and the lists change with it. -/
theorem Owns.relabel {plist : Nat → Pagelist} {v : Label} (h : Owns c H plist count L F)
    (hb : (L pg k i).Whole) (hv : v.Whole) (hfree : v = .free → k < c.maxSize → L pg k (buddyOf i) ≠ .free)
    (halloc : k < c.maxSize → v ≠ .hole → ((plist pg).alloc k i = true ↔ v = .live))
    (hlists : ∀ k' e, e ∈ F' (H.r k') ↔
      ∃ pg' i', L.set pg k i v pg' k' i' = .free ∧ e = c.addr k' i' (plist pg').pageaddr) :
    Owns c H plist count (L.set pg k i v) F' := by
  refine h.retable (fun _ => rfl) (h.wf.relabel hb hv hfree) ?_ ?_ ?_ hlists
  · exact fun pg' => set_eq_iff_of_ne hv.ne.1 hb.ne.1
  · intro pg' k' i' hk hk'
    rw [h.split pg' k' i' hk hk', set_eq_iff_of_ne hv.ne.2 hb.ne.2]
  · intro pg' k' i' hk hh
    by_cases he : pg' = pg ∧ k' = k ∧ i' = i
    · obtain ⟨rfl, rfl, rfl⟩ := he
      rw [set_self] at hh ⊢
      rw [halloc hk hh]
      exact ⟨.inl, fun hc => hc.resolve_right hv.ne.2⟩
    · rw [set_of_ne L v he] at hh ⊢
      exact h.alloc pg' k' i' hk hh

variable {a : Arena}

theorem Rep.setAlloc (h : Rep c H a count L F) (hb : L pg k i = .hole) (v : Bool) :
    Rep c H (a.setAlloc pg k i v) count L F where
  toOwns := by
    refine h.retable (a.pageaddr_setAlloc pg k i · v) h.wf (fun _ => Iff.rfl) ?_ ?_ h.lists
    · intro pg' k' i' hk hk'
      rw [a.split_setAlloc]
      exact h.split pg' k' i' hk hk'
    · intro pg' k' i' hk hh
      have hne : ¬ (pg' = pg ∧ k' = k ∧ i' = i) := by
        rintro ⟨rfl, rfl, rfl⟩
        exact hh hb
      rw [a.alloc_setAlloc, if_neg hne]
      exact h.alloc pg' k' i' hk hh
  rings := h.rings
  foreign x hx e he pg' k' i' hl := by
    rw [a.pageaddr_setAlloc]
    exact h.foreign x hx e he pg' k' i' hl

theorem Rep.relabel {v : Label} (h : Rep c H a count L F) (hb : L pg k i = .live ∨ L pg k i = .hole)
    (hv : v = .live ∨ v = .hole) (halloc : v = .live → k < c.maxSize → (a.plist pg).alloc k i = true)
    (hfor : ∀ x, (∀ k, x ≠ H.r k) → ∀ e ∈ F x, v = .hole → ¬ c.InBlk (a.plist pg).pageaddr k i e) :
    Rep c H a count (L.set pg k i v) F := by
  have hbw : (L pg k i).Whole := .inr hb
  have hvw : v.Whole := .inr hv
  have hvf : v ≠ .free := by
    rcases hv with rfl | rfl <;> decide
  have hbf : L pg k i ≠ .free := by
    rcases hb with hb | hb <;> rw [hb] <;> decide
  have hfree : ∀ pg' k' i', L.set pg k i v pg' k' i' = .free ↔ L pg' k' i' = .free :=
    fun _ _ _ => set_eq_iff_of_ne hvf hbf
  refine ⟨h.toOwns.relabel hbw hvw (fun hf => absurd hf hvf) ?_ ?_, h.rings, ?_⟩
  · intro hk hh
    have hvl : v = .live := hv.resolve_right hh
    exact ⟨fun _ => hvl, fun _ => halloc hvl hk⟩
  · intro k' e
    rw [h.lists]
    simp only [hfree]
  · intro x hx e he pg' k' i' hl
    by_cases hc : pg' = pg ∧ k' = k ∧ i' = i
    · obtain ⟨rfl, rfl, rfl⟩ := hc
      rw [set_self] at hl
      exact hfor x hx e he (hl.resolve_left hvf)
    · rw [set_of_ne L v hc] at hl
      exact h.foreign x hx e he pg' k' i' hl

section
variable [DecidableEq ι]

theorem Heads.update_list (H : c.Heads ι) (F : ι → List Nat) (k k' : Fin c.nsizes) (l : List Nat) :
    update F (H.r k) l (H.r k') = if k' = k then l else F (H.r k') := by
  by_cases hk : k' = k
  · subst hk
    rw [update_self, if_pos rfl]
  · rw [update_of_ne (fun he => hk (H.inj he)), if_neg hk]

theorem Owns.lists_cons {plist : Nat → Pagelist} (h : Owns c H plist count L F) (k : Fin c.nsizes) {j : Nat}
    (hL : ∀ pg' k' i', L' pg' k' i' = .free ↔
      L pg' k' i' = .free ∨ (pg' = pg ∧ k' = k ∧ i' = j)) (k' : Fin c.nsizes) (e : Nat) :
    e ∈ update F (H.r k) (c.addr k j (plist pg).pageaddr :: F (H.r k)) (H.r k') ↔
      ∃ pg' i', L' pg' k' i' = .free ∧ e = c.addr k' i' (plist pg').pageaddr := by
  rw [H.update_list]
  by_cases hk : k' = k
  · subst hk
    rw [if_pos rfl, List.mem_cons, h.lists]
    constructor
    · rintro (rfl | ⟨pg', i', hf', he'⟩)
      · exact ⟨pg, j, (hL ..).mpr (.inr ⟨rfl, rfl, rfl⟩), rfl⟩
      · exact ⟨pg', i', (hL ..).mpr (.inl hf'), he'⟩
    · rintro ⟨pg', i', hf', rfl⟩
      rcases (hL ..).mp hf' with hf | ⟨rfl, -, rfl⟩
      · exact .inr ⟨pg', i', hf, rfl⟩
      · exact .inl rfl
  · rw [if_neg hk, h.lists]
    have hother : ∀ pg' i', L' pg' k' i' = .free ↔ L pg' k' i' = .free := by
      intro pg' i'
      rw [hL]
      refine or_iff_left ?_
      rintro ⟨-, hc, -⟩
      exact hk (Fin.ext hc)
    simp only [hother]

theorem Owns.lists_erase {plist : Nat → Pagelist} (h : Owns c H plist count L F) (k : Fin c.nsizes) {j : Nat}
    (hnd : (F (H.r k)).Nodup) (hfree : L pg k j = .free) (hL : ∀ pg' k' i', L' pg' k' i' = .free ↔
      L pg' k' i' = .free ∧ ¬ (pg' = pg ∧ k' = k ∧ i' = j)) (k' : Fin c.nsizes) (e : Nat) :
    e ∈ update F (H.r k) ((F (H.r k)).erase (c.addr k j (plist pg).pageaddr)) (H.r k') ↔
      ∃ pg' i', L' pg' k' i' = .free ∧ e = c.addr k' i' (plist pg').pageaddr := by
  rw [H.update_list]
  by_cases hk : k' = k
  · subst hk
    rw [if_pos rfl, hnd.mem_erase_iff, h.lists]
    constructor
    · rintro ⟨hne, pg', i', hf', he'⟩
      refine ⟨pg', i', (hL ..).mpr ⟨hf', ?_⟩, he'⟩
      rintro ⟨rfl, -, rfl⟩
      exact hne he'
    · rintro ⟨pg', i', hf', rfl⟩
      obtain ⟨hf, hne⟩ := (hL ..).mp hf'
      refine ⟨?_, pg', i', hf, rfl⟩
      intro hsame
      obtain ⟨rfl, rfl⟩ := h.addr_inj (.inl hf) (.inl hfree) hsame
      exact hne ⟨rfl, rfl, rfl⟩
  · rw [if_neg hk, h.lists]
    have hother : ∀ pg' i', L' pg' k' i' = .free ↔ L pg' k' i' = .free := by
      intro pg' i'
      rw [hL]
      refine and_iff_left ?_
      rintro ⟨-, hc, -⟩
      exact hk (Fin.ext hc)
    simp only [hother]

theorem Rep.pop (h : Rep c H a count L F) (k : Fin c.nsizes) {e : Nat} {l : List Nat} (hF : F (H.r k) = e :: l) :
    ∃ pg i m', e = c.addr k i (a.plist pg).pageaddr ∧ L pg k i = .free ∧ lstPop (c.freelist k) a.mem = some (e, m') ∧
      Rep c H { a with mem := m' } count (L.set pg k i .hole) (update F (H.r k) l) ∧ m' e = a.mem e := by
  have he : e ∈ F (H.r k) := by
    rw [hF]
    exact List.mem_cons_self
  obtain ⟨pg, i, hfree, heq⟩ := (h.lists k e).mp he
  obtain ⟨m', hpop, hrings, hnode⟩ := lstPop_rings h.rings hF (H.pos _) (h.nodes_pos k)
  rw [H.head] at hpop
  have hwhole : (L pg k i).Whole := .inl hfree
  have hl : l = (F (H.r k)).erase (c.addr k i (a.plist pg).pageaddr) := by
    rw [hF, ← heq, List.erase_cons_head]
  refine ⟨pg, i, m', heq, hfree, hpop, ⟨?_, hrings, ?_⟩, hnode⟩
  · refine h.toOwns.relabel hwhole (.inr (.inr rfl)) (by intro hc; cases hc)
      (fun _ hc => absurd rfl hc) ?_
    rw [hl]
    exact h.lists_erase k (h.rings.nodup _) hfree fun _ _ _ => set_eq_iff_and (by decide)
  · intro x hx e' he' pg' k' i' hl
    rw [update_of_ne (hx k)] at he'
    refine h.foreign x hx e' he' pg' k' i' ?_
    by_cases hc : pg' = pg ∧ k' = k ∧ i' = i
    · obtain ⟨rfl, rfl, rfl⟩ := hc
      exact .inl hfree
    · rw [set_of_ne L _ hc] at hl
      exact hl

/-- `lst_push` of the hole makes it a free block, if its buddy is not one. -/
theorem Rep.push (h : Rep c H a count L F) (k : Fin c.nsizes) (hb : L pg k i = .hole)
    (hbuddy : (k : Nat) < c.maxSize → (a.plist pg).alloc k i = false ∧ L pg k (buddyOf i) ≠ .free) :
    ∃ m', lstPush (c.freelist k) (c.addr k i (a.plist pg).pageaddr) a.mem = some m' ∧
      Rep c H { a with mem := m' } count (L.set pg k i .free)
        (update F (H.r k) (c.addr k i (a.plist pg).pageaddr :: F (H.r k))) := by
  have hpres : L pg k i ≠ .absent := by
    rw [hb]
    decide
  have hwhole : (L pg k i).Whole := .inr (.inr hb)
  obtain ⟨m', hpush, hrings⟩ := lstPush_rings h.rings (H.r k) (h.fresh hb (c.inBlk_addr _ _ _))
    (H.pos _) (h.addr_pos hpres)
  rw [H.head] at hpush
  refine ⟨m', hpush, ?_, hrings, ?_⟩
  · refine h.toOwns.relabel hwhole (.inl rfl) (fun _ hk => (hbuddy hk).2) ?_ ?_
    · intro hk _
      rw [(hbuddy hk).1]
      decide
    · exact h.lists_cons k fun _ _ _ => set_eq_self_iff
  · intro x hx e' he' pg' k' i' hl
    rw [update_of_ne (hx k)] at he'
    refine h.foreign x hx e' he' pg' k' i' ?_
    by_cases hc : pg' = pg ∧ k' = k ∧ i' = i
    · obtain ⟨rfl, rfl, rfl⟩ := hc
      exact .inr hb
    · rw [set_of_ne L _ hc] at hl
      exact hl

/-- The body of the second loop of `bd_alloc`: the hole is split and its upper half freed. -/
theorem Rep.splitHole (h : Rep c H a count L F) {k : Nat} (hb : L pg (k + 1) i = .hole)
    (halloc : k + 1 < c.maxSize → (a.plist pg).alloc (k + 1) i = true) :
    ∃ m' F', lstPush (c.freelist k) (c.addr k (2 * i + 1) (a.plist pg).pageaddr) a.mem = some m' ∧
      Rep c H { (a.setSplit pg (k + 1) i true).setAlloc pg k (2 * i) true with mem := m' } count
        (L.splitHole pg k i) F' ∧ ∀ x, (∀ k, x ≠ H.r k) → F' x = F x := by
  have hpres : L pg (k + 1) i ≠ .absent := by
    rw [hb]
    decide
  have hkt : k + 1 ≤ c.maxSize := h.wf.le_top hpres
  have hhalf := h.wf.half_absent hb
  obtain ⟨kf, rfl⟩ : ∃ kf : Fin c.nsizes, k = kf := ⟨⟨k, c.lt_nsizes (by omega)⟩, rfl⟩
  -- the upper half lies in the hole
  have hup : c.InBlk (a.plist pg).pageaddr (kf + 1) i (c.addr kf (2 * i + 1) (a.plist pg).pageaddr) := by
    have := (c.inBlk_addr (a.plist pg).pageaddr kf (2 * i + 1)).parent
    rwa [show (2 * i + 1) / 2 = i by omega] at this
  have hpos : c.addr kf (2 * i + 1) (a.plist pg).pageaddr ≠ 0 := by
    have h1 := h.addr_pos hpres
    rw [← c.addr_upper]
    omega
  obtain ⟨m', hpush, hrings⟩ := lstPush_rings h.rings (H.r kf) (h.fresh hb hup) (H.pos _) hpos
  rw [H.head] at hpush
  refine ⟨m', _, hpush, ⟨?_, hrings, ?_⟩, fun x hx => update_of_ne (hx kf) ..⟩
  · refine h.retable (fun pg' => by simp) (h.wf.splitHole hb) ?_ ?_ ?_ (h.lists_cons kf ?_)
    · intro pg'
      rw [splitHole_absent hb]
      refine and_iff_left ?_
      rintro ⟨-, hc, -⟩
      omega
    · intro pg' k' i' hk hk'
      rw [split_setAlloc, split_setSplit, splitHole_split hhalf]
      split_ifs with hc
      · simp [hc]
      · rw [h.split pg' k' i' hk hk']
        exact (or_iff_left hc).symm
    · intro pg' k' i' hk hh
      rw [alloc_setAlloc, alloc_setSplit, splitHole_live hb hhalf, splitHole_split hhalf]
      have hne : ¬ (pg' = pg ∧ k' = kf ∧ i' = 2 * i) := by
        intro hc
        exact hh ((splitHole_hole hhalf).mpr (.inr hc))
      rw [if_neg hne]
      by_cases hp : pg' = pg ∧ k' = kf + 1 ∧ i' = i
      · obtain ⟨rfl, rfl, rfl⟩ := hp
        rw [halloc hk]
        simp
      · have hold : L pg' k' i' ≠ .hole := by
          intro hc
          exact hh ((splitHole_hole hhalf).mpr (.inl ⟨hc, hp⟩))
        rw [h.alloc pg' k' i' hk hold, or_iff_left hp]
    · intro pg' k' i'
      exact splitHole_free hb hhalf
  · intro x hx e' he' pg' k' i' hl
    rw [update_of_ne (hx kf)] at he'
    show ¬ c.InBlk (((a.setSplit pg (kf + 1) i true).setAlloc pg kf (2 * i) true).plist pg').pageaddr k' i' e'
    rw [pageaddr_setAlloc, pageaddr_setSplit]
    -- what is free or held now was so before, or is a half of the hole
    have key : ∀ j, j / 2 = i → ¬ c.InBlk (a.plist pg).pageaddr kf j e' := by
      intro j hj hin
      have hin' := hin.parent
      rw [hj] at hin'
      exact h.foreign x hx e' he' pg (kf + 1) i (.inr hb) hin'
    rcases hl with hl | hl
    · rcases (splitHole_free hb hhalf).mp hl with hl | ⟨rfl, rfl, rfl⟩
      · exact h.foreign x hx e' he' pg' k' i' (.inl hl)
      · exact key _ (by omega)
    · rcases (splitHole_hole hhalf).mp hl with ⟨hl, -⟩ | ⟨rfl, rfl, rfl⟩
      · exact h.foreign x hx e' he' pg' k' i' (.inr hl)
      · exact key _ (by omega)

/-- The body of the loop of `bd_free`: the hole absorbs its buddy. -/
theorem Rep.mergeHole (h : Rep c H a count L F) (hk : k < c.maxSize) (hb : L pg k i = .hole)
    (hone : L pg k (buddyOf i) ≠ .hole) (hbit : (a.plist pg).alloc k i = false)
    (hbuddy : (a.plist pg).alloc k (buddyOf i) = false) :
    L pg k (buddyOf i) = .free ∧ ∃ m' F', lstRemove (c.addr k (buddyOf i) (a.plist pg).pageaddr) a.mem = some m' ∧
      Rep c H (({ a with mem := m' }.setAlloc pg (k + 1) (i / 2) false).setSplit pg (k + 1) (i / 2) false)
        count (L.mergeHole pg k i) F' ∧ ∀ x, (∀ k, x ≠ H.r k) → F' x = F x := by
  have hpres : L pg k i ≠ .absent := by
    rw [hb]
    decide
  have hpar := h.wf.parent hpres hk
  -- the buddy is there, and by its clear bit neither live nor split
  have hfree : L pg k (buddyOf i) = .free := by
    have hbit' := h.alloc pg k (buddyOf i) hk hone
    rw [hbuddy] at hbit'
    have hno : ¬ (L pg k (buddyOf i) = .live ∨ L pg k (buddyOf i) = .split) := by
      intro hc
      exact Bool.false_ne_true (hbit'.mpr hc)
    rw [not_or] at hno
    rcases Label.whole_of_ne (h.wf.buddy_present hpres hk) hno.2 with hf | hf | hf
    · exact hf
    · exact absurd hf hno.1
    · exact absurd hf hone
  refine ⟨hfree, ?_⟩
  obtain ⟨kf, rfl⟩ : ∃ kf : Fin c.nsizes, k = kf := ⟨⟨k, c.lt_nsizes (by omega)⟩, rfl⟩
  have hin : c.addr kf (buddyOf i) (a.plist pg).pageaddr ∈ F (H.r kf) :=
    (h.lists kf _).mpr ⟨pg, buddyOf i, hfree, rfl⟩
  obtain ⟨m', hrem, hrings⟩ := lstRemove_rings h.rings hin (H.pos _) (h.nodes_pos kf)
  refine ⟨m', _, hrem, ⟨?_, hrings, ?_⟩, fun x hx => update_of_ne (hx kf) ..⟩
  · refine h.retable (fun pg' => by simp) (h.wf.mergeHole hk hb hfree) ?_ ?_ ?_
      (h.lists_erase kf (h.rings.nodup _) hfree ?_)
    · intro pg'
      rw [mergeHole_absent hpar]
      refine or_iff_left ?_
      rintro ⟨-, hc, -⟩
      omega
    · intro pg' k' i' hk' hk''
      rw [split_setSplit, split_setAlloc, mergeHole_split hb hfree]
      split_ifs with hc
      · simp [hc]
      · rw [h.split pg' k' i' hk' hk'']
        exact (and_iff_left hc).symm
    · intro pg' k' i' hk' hh
      have hne : ¬ (pg' = pg ∧ k' = kf + 1 ∧ i' = i / 2) := by
        intro hc
        exact hh ((mergeHole_hole hfree).mpr (.inr hc))
      rw [alloc_setSplit, alloc_setAlloc, if_neg hne, mergeHole_live hb hfree hpar,
        mergeHole_split hb hfree, and_iff_left hne]
      by_cases hp : pg' = pg ∧ k' = kf ∧ i' = i
      · obtain ⟨rfl, rfl, rfl⟩ := hp
        show (a.plist pg').alloc kf i' = true ↔ _
        rw [hbit, hb]
        simp
      · refine h.alloc pg' k' i' hk' ?_
        intro hc
        exact hh ((mergeHole_hole hfree).mpr (.inl ⟨hc, hp⟩))
    · intro pg' k' i'
      exact mergeHole_free hb hpar
  · intro x hx e' he' pg' k' i' hl
    rw [update_of_ne (hx kf)] at he'
    rw [pageaddr_setSplit, pageaddr_setAlloc]
    rcases hl with hl | hl
    · exact h.foreign x hx e' he' pg' k' i' (.inl ((mergeHole_free hb hpar).mp hl).1)
    · rcases (mergeHole_hole hfree).mp hl with ⟨hl, -⟩ | ⟨rfl, rfl, rfl⟩
      · exact h.foreign x hx e' he' pg' k' i' (.inr hl)
      · -- a byte of the merged block is in one of the halves
        intro hblk
        have hhalf : ((e' - (a.plist pg').pageaddr) / c.blkSize kf) / 2 = i / 2 := by
          rw [Nat.div_div_eq_div_mul, ← c.blkSize_succ]
          exact hblk.2
        rcases eq_or_buddyOf hhalf with he | he
        · exact h.foreign x hx e' he' pg' kf i (.inr hb) ⟨hblk.1, he⟩
        · exact h.foreign x hx e' he' pg' kf (buddyOf i) (.inl hfree) ⟨hblk.1, he⟩

end

/-- A page that may be the next one of the table: no other page and no foreign node lies in it. -/
structure NewPage (c : Buddy) {ι : Type} (H : c.Heads ι) (a : Arena) (count : Nat) (F : ι → List Nat) (p : Nat) :
    Prop where
  lt : count < c.npages
  ram : kernbase ≤ p ∧ p + c.pageSize ≤ phystop
  low : H.lim ≤ p
  disj : ∀ pg < count, (a.plist pg).pageaddr + c.pageSize ≤ p ∨ p + c.pageSize ≤ (a.plist pg).pageaddr
  foreign : ∀ x, (∀ k, x ≠ H.r k) → ∀ e ∈ F x, ¬ (p ≤ e ∧ e < p + c.pageSize)

/-- A page is entered in the table; as a whole it is the hole. -/
theorem Rep.enterPage {p : Nat} (h : Rep c H a count L F) (hnew : NewPage c H a count F p) :
    Rep c H (a.setPage count { a.plist count with pageaddr := p }) (count + 1)
      (L.set count c.maxSize 0 .hole) F := by
  have hroot : L count c.maxSize 0 = .absent := by
    by_contra hc
    exact absurd ((h.page count).mp hc) (lt_irrefl _)
  have hall : ∀ P : Nat → Prop, P p → (∀ pg < count, P (a.plist pg).pageaddr) → ∀ pg < count + 1,
      P ((a.setPage count { a.plist count with pageaddr := p }).plist pg).pageaddr := by
    intro P hp hP pg hpg
    rcases Nat.lt_succ_iff_lt_or_eq.mp hpg with hpg | rfl
    · rw [a.pageaddr_setPage_of_ne _ _ p hpg.ne]
      exact hP pg hpg
    · rw [pageaddr_setPage_self]
      exact hp
  have hfree : ∀ pg k i, L.set count c.maxSize 0 .hole pg k i = .free ↔ L pg k i = .free :=
    fun _ _ _ => set_eq_iff_of_ne (by decide) (by rw [hroot]; decide)
  have hused : ∀ pg k i, L pg k i = .free ∨ L pg k i = .hole → pg < count := by
    intro pg k i hl
    refine (h.page pg).mp (h.wf.page (k := k) (i := i) ?_).1
    rcases hl with hl | hl <;> rw [hl] <;> decide
  refine ⟨⟨h.wf.addPage hroot (.inr (.inr rfl)), hnew.lt, ?_, ?_, ?_, ?_, ?_, ?_, ?_, ?_⟩, h.rings, ?_⟩
  · intro pg
    rw [Ne, set_eq_iff_and (by decide), not_and_or, not_not, ← Ne, h.page]
    omega
  · intro pg
    by_cases hpg : pg = count
    · subst hpg
      have : 0 < kernbase := by decide
      have := hnew.ram
      rw [pageaddr_setPage_self]
      omega
    · rw [a.pageaddr_setPage_of_ne _ _ p hpg, h.used]
      omega
  · exact hall (fun x => kernbase ≤ x ∧ x + c.pageSize ≤ phystop) hnew.ram h.ram
  · exact hall (H.lim ≤ ·) hnew.low h.low
  · intro pg hpg pg' hpg' hne
    by_cases he : pg = count
    · subst he
      rw [pageaddr_setPage_self, a.pageaddr_setPage_of_ne _ _ p hne.symm]
      exact (hnew.disj pg' (by omega)).symm
    · by_cases he' : pg' = count
      · subst he'
        rw [pageaddr_setPage_self, a.pageaddr_setPage_of_ne _ _ p hne]
        exact hnew.disj pg (by omega)
      · rw [a.pageaddr_setPage_of_ne _ _ p he, a.pageaddr_setPage_of_ne _ _ p he']
        exact h.disj pg (by omega) pg' (by omega) hne
  · intro pg k i hk hk'
    rw [split_setPage, h.split pg k i hk hk', set_eq_iff_of_ne (by decide) (by rw [hroot]; decide)]
  · intro pg k i hk hh
    have hne : ¬ (pg = count ∧ k = c.maxSize ∧ i = 0) := by
      rintro ⟨-, rfl, -⟩
      exact lt_irrefl _ hk
    rw [set_of_ne L _ hne] at hh ⊢
    rw [alloc_setPage]
    exact h.alloc pg k i hk hh
  · intro k e
    rw [h.lists]
    constructor
    · rintro ⟨pg, i, hf, rfl⟩
      exact ⟨pg, i, (hfree ..).mpr hf, by rw [a.pageaddr_setPage_of_ne _ _ p (hused pg k i (.inl hf)).ne]⟩
    · rintro ⟨pg, i, hf, rfl⟩
      rw [hfree] at hf
      exact ⟨pg, i, hf, by rw [a.pageaddr_setPage_of_ne _ _ p (hused pg k i (.inl hf)).ne]⟩
  · intro x hx e he pg k i hl
    by_cases hc : pg = count ∧ k = c.maxSize ∧ i = 0
    · obtain ⟨rfl, rfl, rfl⟩ := hc
      rw [pageaddr_setPage_self, c.inBlk_iff]
      unfold addr
      rw [zero_mul]
      exact hnew.foreign x hx e he
    · rw [set_of_ne L _ hc] at hl
      rw [a.pageaddr_setPage_of_ne _ _ p (hused pg k i hl).ne]
      exact h.foreign x hx e he pg k i hl

end Buddy

end InternetOs.Mem
