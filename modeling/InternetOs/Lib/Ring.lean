import InternetOs.Lib.DSeg

/-!
# Rings of doubly linked nodes

Several circular lists share one pair of link functions.  The list `x` hangs on its own
sentinel `s x`, and `F x` are the nodes found by following `next` from there; no node is on
two lists.

    a fresh node enters behind a sentinel                                    (Rings.push)
    a node leaves from wherever it is                                        (Rings.remove)
    links of nodes on no list do not matter                                  (Rings.congr)
-/

namespace InternetOs

open Function List

/-- The nodes `l` in the order in which they are met from the sentinel `s`. -/
def Ring (next prev : Nat → Nat) (s : Nat) (l : List Nat) : Prop :=
  DSeg next prev s (next s) l (prev s) s

structure Rings {ι : Type} (next prev : Nat → Nat) (s : ι → Nat) (F : ι → List Nat) : Prop where
  ring : ∀ x, Ring next prev (s x) (F x)
  nodup : ∀ x, (F x).Nodup
  inj : ∀ x y, s x = s y → x = y
  sent : ∀ x y, s x ∉ F y
  apart : ∀ x y a, a ∈ F x → a ∈ F y → x = y

section
variable {next prev next' prev' : Nat → Nat} {s e : Nat} {l l1 l2 : List Nat}

theorem Ring.congr (h : Ring next prev s l) (hs : next' s = next s ∧ prev' s = prev s)
    (hl : ∀ y ∈ l, next' y = next y ∧ prev' y = prev y) : Ring next' prev' s l := by
  unfold Ring
  rw [hs.1, hs.2]
  exact DSeg.congr h hl

theorem Ring.nil_iff (h : Ring next prev s l) (hs : s ∉ l) : next s = s ↔ l = [] := by
  cases l with
  | nil => exact ⟨fun _ => rfl, fun _ => h.2.symm⟩
  | cons x l =>
    constructor
    · intro heq
      exact absurd (heq.symm.trans h.1 ▸ mem_cons_self) hs
    · intro hnil
      cases hnil

theorem Ring.head (h : Ring next prev s (e :: l)) : next s = e := h.1

theorem Ring.push (h : Ring next prev s l) (hnd : l.Nodup) (hs : s ∉ l) (he : e ∉ s :: l)
    (hn : ∀ y, next' y = if y = s then e else if y = e then next s else next y)
    (hv : ∀ y, prev' y = if y = next s then e else if y = e then s else prev y) : Ring next' prev' s (e :: l) := by
  have hes : e ≠ s := fun heq => he (heq ▸ mem_cons_self)
  have hel : e ∉ l := fun hm => he (mem_cons_of_mem s hm)
  have hne : next' e = next s := by rw [hn, if_neg hes, if_pos rfl]
  have hnl : ∀ y ∈ l, next' y = next y := by
    intro y hy
    have hys : y ≠ s := fun heq => hs (heq ▸ hy)
    have hye : y ≠ e := fun heq => hel (heq ▸ hy)
    rw [hn, if_neg hys, if_neg hye]
  refine ⟨by rw [hn, if_pos rfl], ?_, ?_⟩
  · cases l with
    | nil =>
      have hns : next s = s := h.2.symm
      rw [hv, hns, if_neg hes, if_pos rfl]
    | cons y l =>
      have hns : next s = y := h.1
      have hey : e ≠ y := fun heq => hel (heq ▸ mem_cons_self)
      rw [hv, hns, if_neg hey, if_pos rfl]
  · rw [hne]
    cases l with
    | nil =>
      have hns : next s = s := h.2.symm
      refine ⟨?_, hns.symm⟩
      rw [hv, if_pos hns.symm]
    | cons y l =>
      have hns : next s = y := h.1
      have hsy : s ≠ y := fun heq => hs (heq ▸ mem_cons_self)
      have hps : prev' s = prev s := by
        rw [hv, hns, if_neg hsy, if_neg (Ne.symm hes)]
      rw [hps, hns]
      refine DSeg.setStart h (by rw [hv, hns, if_pos rfl]) hnl (fun w hw => ?_)
      have hwy : w ≠ y := fun heq => (nodup_cons.mp hnd).1 (heq ▸ hw)
      have hwe : w ≠ e := fun heq => hel (heq ▸ mem_cons_of_mem y hw)
      rw [hv, hns, if_neg hwy, if_neg hwe]

theorem Ring.neighbours (h : Ring next prev s (l1 ++ e :: l2)) : (if l1 = [] then prev e = s else prev e ∈ l1) ∧
      (if l2 = [] then next e = s else next e ∈ l2) := by
  obtain ⟨h1, h2⟩ := DSeg.split h
  constructor
  · rcases eq_nil_or_concat' l1 with rfl | ⟨l, z, rfl⟩
    · exact h1.1
    · rw [h1.last.1]
      simp
  · cases l2 with
    | nil => exact h2.2.symm
    | cons y l =>
      rw [h2.1]
      exact mem_cons_self

theorem Ring.remove (h : Ring next prev s (l1 ++ e :: l2)) (hnd : (l1 ++ e :: l2).Nodup) (hs : s ∉ l1 ++ e :: l2)
    (hn : ∀ y, next' y = if y = prev e then next e else next y)
    (hv : ∀ y, prev' y = if y = next e then prev e else prev y) : Ring next' prev' s (l1 ++ l2) := by
  obtain ⟨hp, hq⟩ := h.neighbours
  have hdis := (nodup_append.mp hnd).2.2
  have hs1 : s ∉ l1 := fun hm => hs (mem_append_left _ hm)
  have hs2 : s ∉ l2 := fun hm => hs (mem_append_right _ (mem_cons_of_mem e hm))
  have hmem1 : prev e = s ∨ prev e ∈ l1 := by
    split_ifs at hp with h0
    · exact .inl hp
    · exact .inr hp
  have hmem2 : next e = s ∨ next e ∈ l2 := by
    split_ifs at hq with h0
    · exact .inl hq
    · exact .inr hq
  have hcross : ∀ y ∈ l1, ∀ w ∈ l2, y ≠ w :=
    fun y hy w hw => hdis y hy w (mem_cons_of_mem e hw)
  have key := DSeg.remove next' prev' h (fun y _ => hn y)
    (fun y hy => by
      rw [hv, if_neg]
      rintro rfl
      rcases hmem2 with h2 | h2
      · exact hs1 (h2 ▸ hy)
      · exact hcross _ hy _ h2 rfl)
    (fun y hy => by
      rw [hn, if_neg]
      rintro rfl
      rcases hmem1 with h2 | h2
      · exact hs2 (h2 ▸ hy)
      · exact hcross _ h2 _ hy rfl)
    (fun y _ => hv y) hnd
  -- the sentinel's own links change exactly where it is a neighbour
  have hns : next' s = if l1 = [] then next e else next s := by
    rw [hn]
    split_ifs at hp ⊢ with h1 h2 h2
    · rfl
    · exact absurd (h1 ▸ hp) hs1
    · exact absurd hp.symm h1
    · rfl
  have hps : prev' s = if l2 = [] then prev e else prev s := by
    rw [hv]
    split_ifs at hq ⊢ with h1 h2 h2
    · rfl
    · exact absurd (h1 ▸ hq) hs2
    · exact absurd hq.symm h1
    · rfl
  unfold Ring
  rw [hns, hps]
  exact key

end

section
variable {ι : Type} {next prev next' prev' : Nat → Nat} {s : ι → Nat} {F : ι → List Nat}

/-- **Frame.**  Links of nodes that are on no list, sentinels included, may be anything. -/
theorem Rings.congr (h : Rings next prev s F) (hs : ∀ x, next' (s x) = next (s x) ∧ prev' (s x) = prev (s x))
    (hF : ∀ x, ∀ y ∈ F x, next' y = next y ∧ prev' y = prev y) : Rings next' prev' s F :=
  { h with ring := fun x => (h.ring x).congr (hs x) (hF x) }

theorem Rings.sum {κ : Type} {s' : κ → Nat} {F' : κ → List Nat} (h : Rings next prev s F)
    (h' : Rings next prev s' F') (hs : ∀ x y, s x ≠ s' y) (hsF : ∀ x y, s x ∉ F' y)
    (hFs : ∀ x y, s' y ∉ F x) (hF : ∀ x y a, a ∈ F x → a ∉ F' y) :
    Rings next prev (Sum.elim s s') (Sum.elim F F') where
  ring := by
    rintro (x | y)
    · exact h.ring x
    · exact h'.ring y
  nodup := by
    rintro (x | y)
    · exact h.nodup x
    · exact h'.nodup y
  inj := by
    rintro (x | x) (y | y) heq
    · exact congrArg Sum.inl (h.inj x y heq)
    · exact absurd heq (hs x y)
    · exact absurd heq.symm (hs y x)
    · exact congrArg Sum.inr (h'.inj x y heq)
  sent := by
    rintro (x | x) (y | y)
    · exact h.sent x y
    · exact hsF x y
    · exact hFs y x
    · exact h'.sent x y
  apart := by
    rintro (x | x) (y | y) a ha ha'
    · exact congrArg Sum.inl (h.apart x y a ha ha')
    · exact absurd ha' (hF x y a ha)
    · exact absurd ha (hF y x a ha')
    · exact congrArg Sum.inr (h'.apart x y a ha ha')

theorem Rings.neighbours (h : Rings next prev s F) {x : ι} {e : Nat} (he : e ∈ F x) :
    (prev e = s x ∨ prev e ∈ F x) ∧ (next e = s x ∨ next e ∈ F x) := by
  obtain ⟨l1, l2, hF⟩ := append_of_mem he
  have hring := h.ring x
  rw [hF] at hring
  obtain ⟨hp, hq⟩ := hring.neighbours
  constructor
  · split_ifs at hp with h0
    · exact .inl hp
    · exact .inr (hF ▸ mem_append_left _ hp)
  · split_ifs at hq with h0
    · exact .inl hq
    · exact .inr (hF ▸ mem_append_right _ (mem_cons_of_mem e hq))

theorem Rings.prev_ne (h : Rings next prev s F) {x : ι} {e : Nat} (he : e ∈ F x) : prev e ≠ e := by
  obtain ⟨l1, l2, hF⟩ := append_of_mem he
  have hring := h.ring x
  have hnd := h.nodup x
  rw [hF] at hring hnd
  have hprev := hring.neighbours.1
  intro heq
  rw [heq] at hprev
  split_ifs at hprev with h0
  · exact h.sent x x (hprev ▸ he)
  · exact (nodup_append.mp hnd).2.2 e hprev e mem_cons_self rfl

variable [DecidableEq ι]

/-- **Push.**  A node on no list is put behind the sentinel of `x`. -/
theorem Rings.push (h : Rings next prev s F) (x : ι) (e : Nat) (he : ∀ y, e ≠ s y ∧ e ∉ F y)
    (hn : ∀ y, next' y = if y = s x then e else if y = e then next (s x) else next y)
    (hv : ∀ y, prev' y = if y = next (s x) then e else if y = e then s x else prev y) :
    Rings next' prev' s (update F x (e :: F x)) := by
  -- the node the sentinel pointed at belongs to the same list
  have hfirst : next (s x) = s x ∨ next (s x) ∈ F x := by
    have hr := h.ring x
    cases hF : F x with
    | nil =>
      rw [hF] at hr
      exact .inl hr.2.symm
    | cons y l =>
      rw [hF] at hr
      exact .inr (hr.1 ▸ mem_cons_self)
  have hother : ∀ y, y ≠ x → ∀ a, a = s y ∨ a ∈ F y → a ≠ s x ∧ a ≠ e ∧ a ≠ next (s x) := by
    rintro y hyx a (rfl | ha)
    · refine ⟨fun heq => hyx (h.inj _ _ heq), fun heq => (he y).1 heq.symm, fun heq => ?_⟩
      rcases hfirst with h1 | h1
      · exact hyx (h.inj _ _ (heq.trans h1))
      · exact h.sent y x (heq ▸ h1)
    · refine ⟨fun heq => h.sent x y (heq ▸ ha), fun heq => (he y).2 (heq ▸ ha), fun heq => ?_⟩
      rcases hfirst with h1 | h1
      · exact h.sent x y (h1 ▸ heq ▸ ha)
      · exact hyx (h.apart _ _ _ ha (heq ▸ h1))
  have hmem : ∀ y a, a ∈ update F x (e :: F x) y ↔ a ∈ F y ∨ (y = x ∧ a = e) := by
    intro y a
    by_cases hyx : y = x
    · subst hyx
      rw [update_self, mem_cons]
      tauto
    · rw [update_of_ne hyx]
      tauto
  refine ⟨fun y => ?_, fun y => ?_, h.inj, fun y z hm => ?_, fun y z a hy hz => ?_⟩
  · by_cases hyx : y = x
    · subst hyx
      rw [update_self]
      refine (h.ring y).push (h.nodup y) (h.sent y y) ?_ hn hv
      rw [mem_cons]
      rintro (heq | hm)
      · exact (he y).1 heq
      · exact (he y).2 hm
    · rw [update_of_ne hyx]
      have same : ∀ a, a = s y ∨ a ∈ F y → next' a = next a ∧ prev' a = prev a := by
        intro a ha
        obtain ⟨h1, h2, h3⟩ := hother y hyx a ha
        rw [hn, hv, if_neg h1, if_neg h2, if_neg h3, if_neg h2]
        exact ⟨rfl, rfl⟩
      exact (h.ring y).congr (same _ (.inl rfl)) fun a ha => same a (.inr ha)
  · by_cases hyx : y = x
    · subst hyx
      rw [update_self]
      exact nodup_cons.mpr ⟨(he y).2, h.nodup y⟩
    · rw [update_of_ne hyx]
      exact h.nodup y
  · rcases (hmem z _).mp hm with h1 | ⟨-, h1⟩
    · exact h.sent y z h1
    · exact (he y).1 h1.symm
  · rcases (hmem y a).mp hy with h1 | ⟨h1, h1'⟩ <;> rcases (hmem z a).mp hz with h2 | ⟨h2, h2'⟩
    · exact h.apart y z a h1 h2
    · exact absurd (h2' ▸ h1) (he y).2
    · exact absurd (h1' ▸ h2) (he z).2
    · rw [h1, h2]

/-- **Remove.**  A node of the list `x` is linked out of it. -/
theorem Rings.remove (h : Rings next prev s F) (x : ι) (e : Nat) (he : e ∈ F x)
    (hn : ∀ y, next' y = if y = prev e then next e else next y)
    (hv : ∀ y, prev' y = if y = next e then prev e else prev y) :
    Rings next' prev' s (update F x ((F x).erase e)) := by
  obtain ⟨l1, l2, hF⟩ := append_of_mem he
  have hnd := h.nodup x
  have hring := h.ring x
  have hsent := h.sent x x
  have herase : (F x).erase e = l1 ++ l2 := by
    rw [hF] at hnd ⊢
    have hnot : e ∉ l1 := fun hm => (nodup_append.mp hnd).2.2 e hm e mem_cons_self rfl
    rw [erase_append_right _ hnot, erase_cons_head]
  rw [hF] at hring hnd hsent
  obtain ⟨hpm, hqm⟩ := h.neighbours he
  -- a node of another list is neither neighbour of `e`
  have hother : ∀ y, y ≠ x → ∀ a, a = s y ∨ a ∈ F y → ∀ b, b = s x ∨ b ∈ F x → a ≠ b := by
    rintro y hyx a (rfl | ha) b (rfl | hb)
    · exact fun heq => hyx (h.inj _ _ heq)
    · exact fun heq => h.sent y x (heq ▸ hb)
    · exact fun heq => h.sent x y (heq ▸ ha)
    · exact fun heq => hyx (h.apart _ _ _ ha (heq ▸ hb))
  have hmem : ∀ y a, a ∈ update F x ((F x).erase e) y → a ∈ F y := by
    intro y a ha
    by_cases hyx : y = x
    · subst hyx
      rw [update_self] at ha
      exact mem_of_mem_erase ha
    · rwa [update_of_ne hyx] at ha
  refine ⟨fun y => ?_, fun y => ?_, h.inj, fun y z hm => h.sent y z (hmem z _ hm),
    fun y z a hy hz => h.apart y z a (hmem y a hy) (hmem z a hz)⟩
  · by_cases hyx : y = x
    · subst hyx
      rw [update_self, herase]
      exact hring.remove hnd hsent hn hv
    · rw [update_of_ne hyx]
      have same : ∀ a, a = s y ∨ a ∈ F y → next' a = next a ∧ prev' a = prev a := by
        intro a ha
        rw [hn, hv, if_neg (hother y hyx a ha _ hpm), if_neg (hother y hyx a ha _ hqm)]
        exact ⟨rfl, rfl⟩
      exact (h.ring y).congr (same _ (.inl rfl)) fun a ha => same a (.inr ha)
  · by_cases hyx : y = x
    · subst hyx
      rw [update_self]
      exact (h.nodup y).erase e
    · rw [update_of_ne hyx]
      exact h.nodup y

end

end InternetOs
