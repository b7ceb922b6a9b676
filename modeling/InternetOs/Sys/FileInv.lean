import InternetOs.Sys.File
import InternetOs.Net.Ports

/-!
# The file table and the socket blocks

A socket file and its control block point at each other, and a file or block is freed once:

    alive file of type sock  ↔  alive block with f ≠ 0          (Ftable.Inv.scb, Ftable.Inv.file)
    x is in `frees`          ↔  x was allocated and is not alive    (Ftable.Inv.freedFile, freedScb)

One lemma for each thing that can happen to the pair: a new one, the last reference to the file goes, the
block goes after it, a segment or a call changes the block.
-/

namespace InternetOs.Sys

open Net SockCbState Function Option List Stack Ftable

/-! ## Blocks and their files -/

/-- The file of a block that waits for the next `sockaccept` of some open socket. -/
def Pending (n : Stack) (f : Nat) : Prop :=
  ∃ p, n.alive p = true ∧ (n.scbs p).f ≠ 0 ∧ (n.scbs p).acptScb ≠ 0 ∧ (n.scbs (n.scbs p).acptScb).f = f

/-- From `n` to `n'` no block has got another file or another block to accept, or was freed. -/
structure SameFiles (n n' : Stack) : Prop where
  f : ∀ q, (n'.scbs q).f = (n.scbs q).f
  acpt : ∀ q, (n'.scbs q).acptScb = (n.scbs q).acptScb
  alive : n'.alive = n.alive
  brkScb : n'.brkScb = n.brkScb

section
variable {n n' n'' : Stack} {p f : Nat}

theorem SameFiles.refl (n : Stack) : SameFiles n n := ⟨fun _ => rfl, fun _ => rfl, rfl, rfl⟩

theorem SameFiles.trans (h : SameFiles n n') (h' : SameFiles n' n'') : SameFiles n n'' :=
  ⟨fun q => (h'.f q).trans (h.f q), fun q => (h'.acpt q).trans (h.acpt q), h'.alive.trans h.alive,
    h'.brkScb.trans h.brkScb⟩

theorem sameFiles_setScb (n : Stack) (p : Nat) {scb : SockCb} (hf : scb.f = (n.scbs p).f)
    (ha : scb.acptScb = (n.scbs p).acptScb) : SameFiles n (n.setScb p scb) := by
  refine ⟨fun q => ?_, fun q => ?_, rfl, rfl⟩
  all_goals
    by_cases hq : q = p
    · subst hq
      simpa
    · simp [hq]

theorem sameFiles_putConn (n : Stack) (p : Nat) {c : Conn} (h : (n.scbs p).SameHome c.scb) :
    SameFiles n (n.putConn p c) := by
  have := sameFiles_setScb n p h.f h.acptScb
  exact ⟨this.f, this.acpt, rfl, rfl⟩

theorem sameFiles_linkClosed : LinkClosed SameFiles where
  refl := SameFiles.refl
  trans h h' := h.trans h'
  next n p _ := sameFiles_setScb n p rfl rfl
  prev n p _ := sameFiles_setScb n p rfl rfl
  head _ _ _ _ := ⟨fun _ => rfl, fun _ => rfl, rfl, rfl⟩

end

/-! ## The file table -/

structure Ftable.Inv (t : Ftable) (L : Tab → Nat → List Nat) : Prop where
  tables : t.net.Inv L
  /-- `filealloc` links no file to another. -/
  list : t.file = 0
  links : ∀ f, t.alive f = true → (t.files f).prev = 0 ∧ (t.files f).next = 0
  fresh : ∀ f, t.alive f = true → 0 < f ∧ f < t.brk
  brk_pos : 0 < t.brk
  scb : ∀ f, t.alive f = true → (t.files f).type = .sock →
    t.net.alive (t.files f).scb = true ∧ (t.net.scbs (t.files f).scb).f = f
  file : ∀ p, t.net.alive p = true → (t.net.scbs p).f ≠ 0 →
    t.alive (t.net.scbs p).f = true ∧ (t.files (t.net.scbs p).f).type = .sock ∧ (t.files (t.net.scbs p).f).scb = p
  acpt : ∀ p, t.net.alive p = true → (t.net.scbs p).f ≠ 0 → (t.net.scbs p).acptScb ≠ 0 →
    t.net.alive (t.net.scbs p).acptScb = true ∧ (t.net.scbs (t.net.scbs p).acptScb).f ≠ 0
  one : ∀ p q, t.net.alive p = true → (t.net.scbs p).f ≠ 0 → t.net.alive q = true → (t.net.scbs q).f ≠ 0 →
    (t.net.scbs p).acptScb ≠ 0 → (t.net.scbs p).acptScb = (t.net.scbs q).acptScb → p = q
  nodup : t.frees.Nodup
  freedFile : ∀ f, Obj.file f ∈ t.frees ↔ 0 < f ∧ f < t.brk ∧ t.alive f = false
  freedScb : ∀ p, Obj.scb p ∈ t.frees ↔ 0 < p ∧ p < t.net.brkScb ∧ t.net.alive p = false

/-- The table with a new file, over the stack `n`. -/
def Ftable.addFile (t : Ftable) (file : File) (n : Stack) : Ftable :=
  { t with
    net := n
    files := update t.files t.brk file
    alive := update t.alive t.brk true
    brk := t.brk + 1 }

/-- A block with the next file as its own; `p` may wait for it. -/
structure NewSock (t : Ftable) (p : Nat) (n : Stack) : Prop where
  alive : n.alive = update t.net.alive t.net.brkScb true
  brkScb : n.brkScb = t.net.brkScb + 1
  newF : (n.scbs t.net.brkScb).f = t.brk
  newAcpt : (n.scbs t.net.brkScb).acptScb = 0
  f : ∀ q, q ≠ t.net.brkScb → (n.scbs q).f = (t.net.scbs q).f
  acpt : ∀ q, q ≠ t.net.brkScb → (n.scbs q).acptScb = (t.net.scbs q).acptScb ∨
    q = p ∧ (t.net.scbs p).acptScb = 0 ∧ (n.scbs q).acptScb = t.net.brkScb

theorem NewSock.old {t : Ftable} {p q : Nat} {n : Stack} (h : NewSock t p n) (hq : q ≠ t.net.brkScb) :
    n.alive q = t.net.alive q := by
  rw [h.alive, update_of_ne hq]

namespace Ftable.Inv

section
variable {t t' : Ftable} {L L' : Tab → Nat → List Nat} {n : Stack} {p f : Nat}

section
variable (h : t.Inv L)
include h

theorem pending_alive (hf : Pending t.net f) : t.alive f = true ∧ (t.files f).type = .sock := by
  obtain ⟨p, hp, hpf, ha, rfl⟩ := hf
  obtain ⟨hal, hf0⟩ := h.acpt p hp hpf ha
  exact ⟨(h.file _ hal hf0).1, (h.file _ hal hf0).2.1⟩

theorem net_fresh (hp : t.net.alive p = true) : 0 < p ∧ p < t.net.brkScb := by
  obtain ⟨h0, hlt⟩ := h.tables.fresh p hp
  exact ⟨pos_of_ne_zero h0, hlt⟩

theorem not_alive_brk : t.alive t.brk = false := by
  by_contra ha
  exact lt_irrefl _ (h.fresh _ (by simpa using ha)).2

theorem f_ne_brk (hp : t.net.alive p = true) : (t.net.scbs p).f ≠ t.brk := by
  intro hf
  have h0 : (t.net.scbs p).f ≠ 0 := by
    rw [hf]
    exact ne_of_gt h.brk_pos
  have := (h.fresh _ (h.file p hp h0).1).2
  omega

theorem endAccept (hf : ∀ q, (n.scbs q).f = (t.net.scbs q).f)
    (ha : ∀ q, (n.scbs q).acptScb ≠ 0 → (n.scbs q).acptScb = (t.net.scbs q).acptScb)
    (hal : n.alive = t.net.alive) (hbrk : n.brkScb = t.net.brkScb) (hi : n.Inv L') :
    Ftable.Inv { t with net := n } L' where
  tables := hi
  list := h.list
  links := h.links
  fresh := h.fresh
  brk_pos := h.brk_pos
  scb g hg hty := by simpa only [hf, hal] using h.scb g hg hty
  file q hq := by simpa only [hf] using h.file q (hal ▸ hq)
  acpt q hq hqf hqa := by
    rw [hf] at hqf
    rw [ha q hqa, hf, hal]
    exact h.acpt q (hal ▸ hq) hqf (ha q hqa ▸ hqa)
  one q r hq hqf hr hrf hqa heq := by
    rw [hf] at hqf hrf
    have hra : (n.scbs r).acptScb ≠ 0 := by
      rw [← heq]
      exact hqa
    rw [ha q hqa, ha r hra] at heq
    exact h.one q r (hal ▸ hq) hqf (hal ▸ hr) hrf (ha q hqa ▸ hqa) heq
  nodup := h.nodup
  freedFile := h.freedFile
  freedScb q := by simpa only [hbrk, hal] using h.freedScb q

theorem same (hn : SameFiles t.net n) (hi : n.Inv L') : Ftable.Inv { t with net := n } L' :=
  h.endAccept hn.f (fun q _ => hn.acpt q) hn.alive hn.brkScb hi

theorem setRef (f k : Nat) : (t.setFile f { t.files f with ref := k }).Inv L := by
  have hsame : ∀ g, ((t.setFile f { t.files f with ref := k }).files g).type = (t.files g).type ∧
      ((t.setFile f { t.files f with ref := k }).files g).scb = (t.files g).scb ∧
      ((t.setFile f { t.files f with ref := k }).files g).prev = (t.files g).prev ∧
      ((t.setFile f { t.files f with ref := k }).files g).next = (t.files g).next := by
    intro g
    by_cases hg : g = f
    · subst hg
      simp [setFile]
    · simp [setFile, hg]
  refine ⟨h.tables, h.list, fun g hg => ?_, h.fresh, h.brk_pos, fun g hg ht => ?_, fun p hp hf => ?_, h.acpt, h.one,
    h.nodup, h.freedFile, h.freedScb⟩
  · rw [(hsame g).2.2.1, (hsame g).2.2.2]
    exact h.links g hg
  · rw [(hsame g).1] at ht
    rw [(hsame g).2.1]
    exact h.scb g hg ht
  · rw [(hsame _).1, (hsame _).2.1]
    exact h.file p hp hf

theorem freeBlock (hp : t.net.alive p = true) (hf : (t.net.scbs p).f = 0)
    (hn : SameFiles t.net { n with alive := t.net.alive }) (ha : n.alive = update t.net.alive p false)
    (hi : n.Inv L') : Ftable.Inv { t with net := n, frees := t.frees ++ [.scb p] } L' := by
  have hnf : ∀ q, (n.scbs q).f = (t.net.scbs q).f := hn.f
  have hna : ∀ q, (n.scbs q).acptScb = (t.net.scbs q).acptScb := hn.acpt
  have hal : ∀ {q}, n.alive q = true → q ≠ p ∧ t.net.alive q = true := by
    intro q hq
    rw [ha] at hq
    exact update_false_iff.mp hq
  have hkeep : ∀ {q}, t.net.alive q = true → (t.net.scbs q).f ≠ 0 → n.alive q = true := by
    intro q hq hqf
    rw [ha, update_of_ne]
    · exact hq
    · rintro rfl
      exact hqf hf
  obtain ⟨hp0, hpb⟩ := h.net_fresh hp
  exact
    { tables := hi
      list := h.list
      links := h.links
      fresh := h.fresh
      brk_pos := h.brk_pos
      scb := fun g hg ht => by
        obtain ⟨h1, h2⟩ := h.scb g hg ht
        refine ⟨hkeep h1 ?_, (hnf _).trans h2⟩
        rw [h2]
        exact ne_of_gt (h.fresh g hg).1
      file := fun q hq => by simpa only [hnf] using h.file q (hal hq).2
      acpt := fun q hq hqf hqa => by
        rw [hnf] at hqf
        rw [hna] at hqa ⊢
        obtain ⟨h1, h2⟩ := h.acpt q (hal hq).2 hqf hqa
        rw [hnf]
        exact ⟨hkeep h1 h2, h2⟩
      one := fun q r hq hqf hr hrf => by
        rw [hnf] at hqf hrf
        rw [hna, hna]
        exact h.one q r (hal hq).2 hqf (hal hr).2 hrf
      nodup := by
        refine concat_eq_append ▸ .concat (fun hm => ?_) h.nodup
        rw [h.freedScb, hp] at hm
        exact absurd hm.2.2 (by decide)
      freedFile := fun g => by
        rw [← h.freedFile]
        simp
      freedScb := fun q => by
        rw [mem_append, h.freedScb, ha, show n.brkScb = t.net.brkScb from hn.brkScb]
        by_cases hqp : q = p
        · subst hqp
          simp [hp0, hpb]
        · simp [hqp] }

/-- The last reference to a file goes, and the block that has it loses it. -/
theorem dropFile (hf : t.alive f = true)
    (hnf : ∀ q, t.net.alive q = true → (n.scbs q).f = if (t.net.scbs q).f = f then 0 else (t.net.scbs q).f)
    (hna : ∀ q, (n.scbs q).acptScb = (t.net.scbs q).acptScb) (hal : n.alive = t.net.alive)
    (hbrk : n.brkScb = t.net.brkScb) (hnp : ¬ Pending t.net f) (hi : n.Inv L') :
    Ftable.Inv { t with
      net := n
      files := update t.files f { t.files f with ref := 0, type := .none }
      alive := update t.alive f false
      frees := t.frees ++ [.file f] } L' := by
  obtain ⟨hf0, hfb⟩ := h.fresh f hf
  have halive : ∀ {g}, update t.alive f false g = true → g ≠ f ∧ t.alive g = true := update_false_iff.mp
  have hfiles : ∀ {g}, g ≠ f → update t.files f { t.files f with ref := 0, type := .none } g = t.files g :=
    fun hg => update_of_ne hg _ _
  -- a block that still has a file has the one it had
  have hold : ∀ {q}, t.net.alive q = true → (n.scbs q).f ≠ 0 →
      (t.net.scbs q).f ≠ f ∧ (n.scbs q).f = (t.net.scbs q).f := by
    intro q hq hqf
    rw [hnf q hq] at hqf ⊢
    split at hqf
    · exact absurd rfl hqf
    · next hne => exact ⟨hne, if_neg hne⟩
  exact
    { tables := hi
      list := h.list
      links := fun g hg => by
        obtain ⟨hgf, hg⟩ := halive hg
        dsimp only
        rw [hfiles hgf]
        exact h.links g hg
      fresh := fun g hg => h.fresh g (halive hg).2
      brk_pos := h.brk_pos
      scb := fun g hg ht => by
        obtain ⟨hgf, hg⟩ := halive hg
        dsimp only at ht ⊢
        rw [hfiles hgf] at ht ⊢
        obtain ⟨h1, h2⟩ := h.scb g hg ht
        refine ⟨hal ▸ h1, ?_⟩
        rw [hnf _ h1, h2, if_neg hgf]
      file := fun q hq hqf => by
        rw [hal] at hq
        obtain ⟨hne, heq⟩ := hold hq hqf
        dsimp only
        rw [heq] at hqf ⊢
        rw [hfiles hne, update_of_ne hne]
        exact h.file q hq hqf
      acpt := fun q hq hqf hqa => by
        rw [hal] at hq
        obtain ⟨hne, heq⟩ := hold hq hqf
        rw [heq] at hqf
        rw [hna] at hqa ⊢
        obtain ⟨h1, h2⟩ := h.acpt q hq hqf hqa
        refine ⟨hal ▸ h1, ?_⟩
        rw [hnf _ h1, if_neg]
        · exact h2
        · intro hfa
          exact hnp ⟨q, hq, hqf, hqa, hfa⟩
      one := fun q r hq hqf hr hrf => by
        rw [hal] at hq hr
        rw [(hold hq hqf).2] at hqf
        rw [(hold hr hrf).2] at hrf
        rw [hna, hna]
        exact h.one q r hq hqf hr hrf
      nodup := by
        refine concat_eq_append ▸ .concat (fun hm => ?_) h.nodup
        rw [h.freedFile, hf] at hm
        exact absurd hm.2.2 (by decide)
      freedFile := fun g => by
        rw [mem_append, h.freedFile]
        by_cases hgf : g = f
        · subst hgf
          simp [hf0, hfb]
        · simp [hgf]
      freedScb := fun q => by
        rw [mem_append, h.freedScb, hal, hbrk]
        simp }

theorem nextFile (file : File) (hprev : file.prev = 0) (hnext : file.next = 0) :
    (∀ g, update t.alive t.brk true g = true → (update t.files t.brk file g).prev = 0 ∧
      (update t.files t.brk file g).next = 0) ∧
    (∀ g, update t.alive t.brk true g = true → 0 < g ∧ g < t.brk + 1) ∧
    ∀ g, Obj.file g ∈ t.frees ↔ 0 < g ∧ g < t.brk + 1 ∧ update t.alive t.brk true g = false := by
  refine ⟨fun g hg => ?_, fun g hg => ?_, fun g => ?_⟩ <;> by_cases hgb : g = t.brk
  · rw [hgb, update_self]
    exact ⟨hprev, hnext⟩
  · rw [update_of_ne hgb] at hg ⊢
    exact h.links g hg
  · exact ⟨hgb ▸ h.brk_pos, hgb ▸ Nat.lt_succ_self _⟩
  · rw [update_of_ne hgb] at hg
    exact (h.fresh g hg).imp_right Nat.lt_succ_of_lt
  · rw [h.freedFile]
    simp [hgb]
  · have hlt : g < t.brk ↔ g < t.brk + 1 := by omega
    rw [h.freedFile, update_of_ne hgb, hlt]

theorem newFile {type : FileType} (ht : type ≠ .sock) : (t.addFile ⟨type, 1, 0, 0, 0⟩ t.net).Inv L := by
  have halive : ∀ {g}, update t.alive t.brk true g = true → g ≠ t.brk → t.alive g = true := by
    intro g hg hgb
    rwa [update_of_ne hgb] at hg
  have hfiles := h.nextFile ⟨type, 1, 0, 0, 0⟩ rfl rfl
  exact
    { tables := h.tables
      list := h.list
      links := hfiles.1
      fresh := hfiles.2.1
      brk_pos := Nat.succ_pos _
      scb := fun g hg hty => by
        dsimp only [addFile] at hty ⊢
        by_cases hgb : g = t.brk
        · simp [hgb] at hty
          exact absurd hty ht
        · rw [update_of_ne hgb] at hty ⊢
          exact h.scb g (halive hg hgb) hty
      file := fun q hq hqf => by
        dsimp only [addFile]
        rw [update_of_ne (h.f_ne_brk hq), update_of_ne (h.f_ne_brk hq)]
        exact h.file q hq hqf
      acpt := h.acpt
      one := h.one
      nodup := h.nodup
      freedFile := hfiles.2.2
      freedScb := h.freedScb }

theorem ne_brkScb {q : Nat} (hq : t.net.alive q = true) : q ≠ t.net.brkScb := ne_of_lt (h.net_fresh hq).2

theorem newSock (hn : NewSock t p n) (hi : n.Inv L') : (t.addFile ⟨.sock, 1, t.net.brkScb, 0, 0⟩ n).Inv L' := by
  have halive : ∀ {g}, update t.alive t.brk true g = true → g ≠ t.brk → t.alive g = true := by
    intro g hg hgb
    rwa [update_of_ne hgb] at hg
  have hfiles := h.nextFile ⟨.sock, 1, t.net.brkScb, 0, 0⟩ rfl rfl
  have hnew : n.alive t.net.brkScb = true := by
    rw [hn.alive]
    simp
  have hb0 : t.brk ≠ 0 := ne_of_gt h.brk_pos
  have hq0 : t.net.brkScb ≠ 0 := ne_of_gt h.tables.brk_pos
  exact
    { tables := hi
      list := h.list
      links := hfiles.1
      fresh := hfiles.2.1
      brk_pos := Nat.succ_pos _
      scb := fun g hg hty => by
        dsimp only [addFile] at hty ⊢
        by_cases hgb : g = t.brk
        · subst hgb
          simpa [hnew] using hn.newF
        · rw [update_of_ne hgb] at hty ⊢
          obtain ⟨h1, h2⟩ := h.scb g (halive hg hgb) hty
          exact ⟨(hn.old (h.ne_brkScb h1)).trans h1, (hn.f _ (h.ne_brkScb h1)).trans h2⟩
      file := fun q hq hqf => by
        dsimp only [addFile] at hq hqf ⊢
        by_cases hqb : q = t.net.brkScb
        · subst hqb
          rw [hn.newF]
          simp
        · rw [hn.old hqb] at hq
          rw [hn.f q hqb] at hqf ⊢
          rw [update_of_ne (h.f_ne_brk hq), update_of_ne (h.f_ne_brk hq)]
          exact h.file q hq hqf
      acpt := fun q hq hqf hqa => by
        dsimp only [addFile] at hq hqf hqa ⊢
        by_cases hqb : q = t.net.brkScb
        · subst hqb
          exact absurd hn.newAcpt hqa
        · rw [hn.old hqb] at hq
          rw [hn.f q hqb] at hqf
          rcases hn.acpt q hqb with ha | ⟨-, -, ha⟩
          · rw [ha] at hqa ⊢
            obtain ⟨h1, h2⟩ := h.acpt q hq hqf hqa
            rw [hn.old (h.ne_brkScb h1), hn.f _ (h.ne_brkScb h1)]
            exact ⟨h1, h2⟩
          · rw [ha]
            exact ⟨hnew, by rw [hn.newF]; exact hb0⟩
      one := fun q r hq hqf hr hrf hqa heq => by
        dsimp only [addFile] at hq hr hqf hrf hqa heq
        have hqb : q ≠ t.net.brkScb := by
          rintro rfl
          exact hqa hn.newAcpt
        have hrb : r ≠ t.net.brkScb := by
          rintro rfl
          exact hqa (heq.trans hn.newAcpt)
        rw [hn.old hqb] at hq
        rw [hn.old hrb] at hr
        rw [hn.f q hqb] at hqf
        rw [hn.f r hrb] at hrf
        rcases hn.acpt q hqb with ha | ⟨rfl, -, ha⟩ <;> rcases hn.acpt r hrb with ha' | ⟨rfl, -, ha'⟩
        · rw [ha] at hqa heq
          rw [ha'] at heq
          exact h.one q r hq hqf hr hrf hqa heq
        · rw [ha] at hqa heq
          exact absurd (heq.trans ha') (h.ne_brkScb (h.acpt q hq hqf hqa).1)
        · rw [ha, ha'] at heq
          have hr0 : (t.net.scbs r).acptScb ≠ 0 := by
            rw [← heq]
            exact hq0
          exact absurd heq.symm (h.ne_brkScb (h.acpt r hr hrf hr0).1)
        · rfl
      nodup := h.nodup
      freedFile := hfiles.2.2
      freedScb := fun q => by
        dsimp only [addFile]
        rw [h.freedScb, hn.brkScb]
        by_cases hqb : q = t.net.brkScb
        · simp [hqb, hnew]
        · have hlt : q < t.net.brkScb ↔ q < t.net.brkScb + 1 := by omega
          rw [hn.old hqb, hlt] }

/-- What waits after a new socket: what waited before, and the new one if it was made for `p`. -/
theorem pending_newSock (hn : NewSock t p n) :
    Pending n f ↔ Pending t.net f ∨ f = t.brk ∧ p ≠ t.net.brkScb ∧ t.net.alive p = true ∧ (t.net.scbs p).f ≠ 0 ∧
      (n.scbs p).acptScb = t.net.brkScb := by
  constructor
  · rintro ⟨q, hq, hqf, hqa, hf⟩
    have hqb : q ≠ t.net.brkScb := by
      rintro rfl
      exact hqa hn.newAcpt
    rw [hn.old hqb] at hq
    rw [hn.f q hqb] at hqf
    rcases hn.acpt q hqb with ha | ⟨rfl, -, ha⟩
    · rw [ha] at hqa hf
      rw [hn.f _ (h.ne_brkScb (h.acpt q hq hqf hqa).1)] at hf
      exact .inl ⟨q, hq, hqf, hqa, hf⟩
    · rw [ha, hn.newF] at hf
      exact .inr ⟨hf.symm, hqb, hq, hqf, ha⟩
  · rintro (⟨q, hq, hqf, hqa, hf⟩ | ⟨rfl, hpb, hp, hpf, ha⟩)
    · have hqb := h.ne_brkScb hq
      have hab := h.ne_brkScb (h.acpt q hq hqf hqa).1
      rcases hn.acpt q hqb with ha | ⟨rfl, h0, -⟩
      · refine ⟨q, (hn.old hqb).trans hq, by rw [hn.f q hqb]; exact hqf, by rw [ha]; exact hqa, ?_⟩
        rw [ha, hn.f _ hab]
        exact hf
      · exact absurd h0 hqa
    · refine ⟨p, (hn.old hpb).trans hp, by rw [hn.f p hpb]; exact hpf, ?_, by rw [ha, hn.newF]⟩
      rw [ha]
      exact ne_of_gt h.tables.brk_pos

end

end

end Ftable.Inv

/-! ## The operations on the file table -/

/-- From `t` to `t'` the files are the same, and so is every block that has one. -/
structure Keeps (t t' : Ftable) : Prop where
  files : t'.files = t.files
  alive : t'.alive = t.alive
  f : ∀ q, (t'.net.scbs q).f = (t.net.scbs q).f
  acpt : ∀ q, (t'.net.scbs q).acptScb = (t.net.scbs q).acptScb
  open_ : ∀ q, (t.net.scbs q).f ≠ 0 → t'.net.alive q = t.net.alive q

section
variable {t t' : Ftable} {L L' : Tab → Nat → List Nat} {n n' : Stack} {p f : Nat}
  {m : Mbuf} {len : UInt16} {raddr : UInt32}

theorem Keeps.of_net (h : SameFiles t.net n) : Keeps t { t with net := n } :=
  ⟨rfl, rfl, h.f, h.acpt, fun _ _ => by rw [h.alive]⟩

theorem Keeps.trans {t'' : Ftable} (h : Keeps t t') (h' : Keeps t' t'') : Keeps t t'' :=
  ⟨h'.files.trans h.files, h'.alive.trans h.alive, fun q => (h'.f q).trans (h.f q),
    fun q => (h'.acpt q).trans (h.acpt q), fun q hq => (h'.open_ q (by rw [h.f]; exact hq)).trans (h.open_ q hq)⟩

theorem Keeps.pending (h : Keeps t t') : Pending t'.net f ↔ Pending t.net f := by
  refine exists_congr fun p => ?_
  simp only [h.f, h.acpt]
  constructor
  · rintro ⟨hp, hpf, hpa⟩
    exact ⟨(h.open_ p hpf) ▸ hp, hpf, hpa⟩
  · rintro ⟨hp, hpf, hpa⟩
    exact ⟨(h.open_ p hpf).trans hp, hpf, hpa⟩

theorem filealloc_eq (h : t.Inv L) : filealloc t = some (t.addFile ⟨.none, 1, 0, 0, 0⟩ t.net, t.brk) := by
  unfold filealloc lastFile
  rw [if_pos h.list]
  rfl

theorem filedup_eq (hf : t.alive f = true) (hr : 0 < (t.files f).ref) :
    filedup t f = some (t.setFile f { t.files f with ref := (t.files f).ref + 1 }) := by
  unfold filedup
  rw [if_neg]
  rintro (ha | hlt)
  · rw [hf] at ha
    cases ha
  · omega

theorem filefree_more (hf : t.alive f = true) (hr : 1 < (t.files f).ref) :
    filefree t f = some (t.setFile f { t.files f with ref := (t.files f).ref - 1 }, false) := by
  unfold filefree
  rw [if_neg, if_pos (by omega)]
  rintro (ha | hlt)
  · rw [hf] at ha
    cases ha
  · omega

theorem filefree_last (h : t.Inv L) (hf : t.alive f = true) (hr : (t.files f).ref = 1) :
    filefree t f = some ({ t with
      files := update t.files f { t.files f with ref := 0, type := .none }
      alive := update t.alive f false
      frees := t.frees ++ [.file f] }, true) := by
  obtain ⟨hprev, hnext⟩ := h.links f hf
  unfold filefree
  rw [if_neg, if_neg (by omega)]
  · dsimp only
    rw [if_pos hprev, hnext]
    simp [setFile, h.list]
  · rintro (ha | hlt)
    · rw [hf] at ha
      cases ha
    · omega

/-! ### Blocks without a file -/

theorem freeSockCb_files (hs : Net.freeSockCb n p = some n') :
    SameFiles n { n' with alive := n.alive } ∧ n'.alive = update n.alive p false := by
  obtain ⟨n1, h1, rfl⟩ := sameFiles_linkClosed.freeSockCb hs
  refine ⟨⟨h1.f, h1.acpt, rfl, h1.brkScb⟩, ?_⟩
  rw [h1.alive]
  rfl

theorem freeSockCb_closed (hf : (t.net.scbs p).f = 0) :
    freeSockCb t p = (Net.freeSockCb t.net p).map fun net => { t with net := net, frees := t.frees ++ [.scb p] } := by
  unfold freeSockCb
  rw [if_neg (not_not.mpr hf)]
  rfl

theorem Ftable.Inv.freeSockCb (h : t.Inv L) (hp : t.net.alive p = true) (hf : (t.net.scbs p).f = 0)
    (hs : freeSockCb t p = some t') :
    Net.freeSockCb t.net p = some t'.net ∧ Keeps t t' ∧ ∀ L', t'.net.Inv L' → t'.Inv L' := by
  rw [freeSockCb_closed hf] at hs
  obtain ⟨n, hn, rfl⟩ := map_eq_some_iff.mp hs
  obtain ⟨hsame, hal⟩ := freeSockCb_files hn
  refine ⟨hn, ⟨rfl, rfl, hsame.f, hsame.acpt, fun q hq => ?_⟩, fun L' hi => h.freeBlock hp hf hsame hal hi⟩
  have hqp : q ≠ p := by
    rintro rfl
    exact hq hf
  show n.alive q = _
  rw [hal, update_of_ne hqp]

theorem Ftable.Inv.sockclose (h : t.Inv L) (hp : t.net.alive p = true) (hf : (t.net.scbs p).f = 0)
    (hg : TableStep t.net (.sockclose p)) (hs : sockclose t p = some t') :
    Net.sockclose t.net p = some t'.net ∧ Keeps t t' ∧ ∃ L', t'.Inv L' ∧ ∀ tb i, (L' tb i).Sublist (L tb i) := by
  have hself : t.net.setScb p { t.net.scbs p with f := 0 } = t.net := by
    have : { t.net.scbs p with f := 0 } = t.net.scbs p := by rw [← hf]
    rw [this, setScb, update_eq_self]
  have hput : SameFiles t.net (t.net.putConn p (tcpClose (t.net.conn p)).1) :=
    sameFiles_putConn t.net p (tcpClose_home (t.net.conn p))
  have key : Net.sockclose t.net p = some t'.net ∧ Keeps t t' ∧ ∀ L', t'.net.Inv L' → t'.Inv L' := by
    unfold Sys.sockclose at hs
    unfold Net.sockclose
    rw [hself]
    dsimp only at hs ⊢
    split at hs
    · next htcp =>
      rw [if_pos htcp]
      have h1 : ∀ L', (t.net.putConn p (tcpClose (t.net.conn p)).1).Inv L' →
          Ftable.Inv { t with net := t.net.putConn p (tcpClose (t.net.conn p)).1 } L' :=
        fun L' hi => h.same hput hi
      split at hs
      · next h0 =>
        rw [if_pos h0]
        have hL : (t.net.putConn p (tcpClose (t.net.conn p)).1).Inv L := by
          obtain ⟨hl, hd⟩ := tcpClose_links (t.net.conn p)
          exact h.tables.putConn hl fun hd' => .inr (.inl (hd ▸ hd'))
        obtain ⟨h2, h3, h4⟩ := (h1 L hL).freeSockCb hp (by rw [hput.f]; exact hf) hs
        exact ⟨h2, (Keeps.of_net hput).trans h3, h4⟩
      · next h0 =>
        rw [if_neg h0, ← some.inj hs]
        exact ⟨rfl, Keeps.of_net hput, h1⟩
    · next htcp =>
      rw [if_neg htcp]
      exact h.freeSockCb hp hf hs
  obtain ⟨hnet, hkeep, hinv⟩ := key
  obtain ⟨L', hi, hsub⟩ := sockclose_inv h.tables hp hg hnet
  exact ⟨hnet, hkeep, L', hinv L' hi, hsub⟩

/-! ### New sockets -/

theorem Ftable.addFile_setFile (t : Ftable) (file file' : File) (n n' : Stack) :
    { (t.addFile file n).setFile t.brk file' with net := n' } = t.addFile file' n' := by
  simp [addFile, setFile]

theorem sockalloc_spec (h : t.Inv L) {ty : SockType} (ht : ty ≠ .unknown) :
    ∃ n, sockalloc t ty = some (t.addFile ⟨.sock, 1, t.net.brkScb, 0, 0⟩ n, t.brk) ∧ NewSock t 0 n ∧ n.Inv L := by
  refine ⟨(Net.sockalloc t.net ty).setScb t.net.brkScb
    { (Net.sockalloc t.net ty).scbs t.net.brkScb with f := t.brk }, ?_, ?_, ?_⟩
  · unfold sockalloc
    rw [filealloc_eq h, map_some]
    dsimp only
    rw [t.addFile_setFile]
    simp [addFile]
  · refine ⟨rfl, rfl, ?_, ?_, fun q hq => ?_, fun q hq => .inl ?_⟩
    · simp
    · simp [Net.sockalloc, alloc, allocSockCb]
    · simp [Net.sockalloc, alloc, hq]
    · simp [Net.sockalloc, alloc, hq]
  · exact (sockalloc_inv h.tables ht).setScb ⟨rfl, rfl, rfl, rfl⟩ fun hd => .inr (.inl hd)

/-- The block `sockaccept` makes, for the socket `p` that waits for none. -/
theorem sockaccept_newSock (h : t.Inv L) (hp : t.net.alive p = true) (h0 : (t.net.scbs p).acptScb = 0)
    (hs : Net.sockaccept t.net p = some n) :
    NewSock t p (n.setScb t.net.brkScb { n.scbs t.net.brkScb with f := t.brk }) ∧
      ((n.setScb t.net.brkScb { n.scbs t.net.brkScb with f := t.brk }).scbs p).acptScb = t.net.brkScb := by
  have hpb := h.ne_brkScb hp
  unfold Net.sockaccept at hs
  rw [if_neg (not_not.mpr h0)] at hs
  have hsame := sameFiles_linkClosed.addSockCb hs
  have hother : ∀ q, q ≠ t.net.brkScb →
      ((n.setScb t.net.brkScb { n.scbs t.net.brkScb with f := t.brk }).scbs q) = n.scbs q :=
    fun q hq => by simp [hq]
  have hpa : (n.scbs p).acptScb = t.net.brkScb := by
    rw [hsame.acpt]
    simp [sockcopy, alloc]
  refine ⟨⟨hsame.alive, hsame.brkScb, ?_, ?_, fun q hq => ?_, fun q hq => ?_⟩, ?_⟩
  · simp
  · have := hsame.acpt t.net.brkScb
    simp only [setScb, sockcopy, alloc, update_of_ne (Ne.symm hpb), update_self, allocSockCb] at this ⊢
    exact this
  · rw [hother q hq, hsame.f]
    by_cases hqp : q = p
    · subst hqp
      simp [sockcopy, alloc, hq]
    · simp [sockcopy, alloc, hq, hqp]
  · rw [hother q hq]
    by_cases hqp : q = p
    · subst hqp
      exact .inr ⟨rfl, h0, hpa⟩
    · refine .inl ?_
      rw [hsame.acpt]
      simp [sockcopy, alloc, hq, hqp]
  · rw [hother p hpb]
    exact hpa

/-- `sockaccept` of an open socket: the block that waits, or a new one. -/
theorem sockaccept_cases (h : t.Inv L) (hp : t.net.alive p = true) (hf : (t.net.scbs p).f ≠ 0)
    {r : Ftable × Nat × Nat} (hs : sockaccept t p = some r) :
    (t.net.scbs p).acptScb ≠ 0 ∧ r = (t, (t.net.scbs (t.net.scbs p).acptScb).f, (t.net.scbs p).acptScb) ∨
      (t.net.scbs p).acptScb = 0 ∧ ∃ n L', r = (t.addFile ⟨.sock, 1, t.net.brkScb, 0, 0⟩ n, t.brk, t.net.brkScb) ∧
        NewSock t p n ∧ (n.scbs p).acptScb = t.net.brkScb ∧ n.Inv L' := by
  unfold Sys.sockaccept at hs
  dsimp only at hs
  split at hs
  · next ha =>
    split at hs
    · exact .inl ⟨ha, (some.inj hs).symm⟩
    · cases hs
  next ha =>
  have h0 := not_not.mp ha
  rw [filealloc_eq h] at hs
  obtain ⟨n, hn, hr⟩ := map_eq_some_iff.mp hs
  obtain ⟨hnew, hpa⟩ := sockaccept_newSock h hp h0 hn
  obtain ⟨L', hi, -⟩ := sockaccept_inv h.tables hp hn
  refine .inr ⟨h0, _, L', ?_, hnew, hpa, hi.setScb ⟨rfl, rfl, rfl, rfl⟩ fun hd => .inr (.inl hd)⟩
  rw [← hr]
  rw [t.addFile_setFile, (h.file p hp hf).2.1]
  simp [addFile]

/-! ### Segments -/

/-- Apart from links, no block but `p` changes. -/
def OthersSame (p : Nat) (n n' : Stack) : Prop := ∀ q, q ≠ p → (n.scbs q).SameButLinks (n'.scbs q)

theorem othersSame_setScb (n : Stack) (p q : Nat) {scb : SockCb} (h : q = p ∨ (n.scbs q).SameButLinks scb) :
    OthersSame p n (n.setScb q scb) := by
  intro r hr
  by_cases hrq : r = q
  · subst hrq
    simpa using h.resolve_left hr
  · simp [hrq, SockCb.SameButLinks]

theorem othersSame_linkClosed (p : Nat) : LinkClosed (OthersSame p) where
  refl _ _ _ := rfl
  trans h h' q hq := by
    have h1 := h q hq
    have h2 := h' q hq
    unfold SockCb.SameButLinks at h1 h2 ⊢
    rw [h2, h1]
  next n q _ := othersSame_setScb n p q (.inr rfl)
  prev n q _ := othersSame_setScb n p q (.inr rfl)
  head _ _ _ _ _ _ := rfl

theorem sockclose_others (hs : Net.sockclose n p = some n') : OthersSame p n n' := by
  have hc := othersSame_linkClosed p
  have hfree : ∀ {m : Stack}, Net.freeSockCb m p = some n' → OthersSame p m n' := by
    intro m hm
    obtain ⟨n1, h1, rfl⟩ := hc.freeSockCb hm
    exact h1
  have hf : OthersSame p n (n.setScb p { n.scbs p with f := 0 }) := othersSame_setScb n p p (.inl rfl)
  unfold Net.sockclose at hs
  dsimp only at hs
  generalize n.setScb p { n.scbs p with f := 0 } = n1 at hs hf
  have hput : OthersSame p n1 (n1.putConn p (tcpClose (n1.conn p)).1) := othersSame_setScb n1 p p (.inl rfl)
  split at hs
  · split at hs
    · exact hc.trans hf (hc.trans hput (hfree hs))
    · cases hs
      exact hc.trans hf hput
  · exact hc.trans hf (hfree hs)

/-- What a segment must not do: free a block that still has its file, or that is linked without a remote port. -/
def RecvOk (n : Stack) (m : Mbuf) (raddr : UInt32) : Prop :=
  ∀ p, getSockCb n .tcp m.tcphdr.dport raddr m.tcphdr.sport = some p →
    (n.scbs p).state ≠ closed → (n.scbs p).state ≠ listen → (n.scbs p).state ≠ synSent →
    (n.scbs p).mayFree m.tcphdr = true → (n.scbs p).f = 0 ∧ (n.scbs p).dport ≠ 0

theorem RecvOk.freed (hg : RecvOk n m raddr) (hp : getSockCb n .tcp m.tcphdr.dport raddr m.tcphdr.sport = some p)
    (hf : (tcpRecvSwitch ((n.conn p).newMbuf m) n.brk len raddr m.tcphdr.sport).2 = true) :
    (n.scbs p).f = 0 ∧ (n.scbs p).dport ≠ 0 := by
  obtain ⟨h1, h2, h3, h4⟩ := mayFree_of_found hf
  exact hg p hp h1 h2 h3 h4

theorem Ftable.Inv.tcpRecv (h : t.Inv L) (hg : RecvOk t.net m raddr)
    (hs : tcpRecv t m len raddr = some t') : Keeps t t' ∧ ∃ L', t'.Inv L' := by
  have hsame : Keeps t t ∧ ∃ L', t.Inv L' := ⟨Keeps.of_net (.refl t.net), L, h⟩
  obtain ⟨p, hp, hspec⟩ := getSockCb_spec h.tables.toLists h.tables.brk_pos .tcp m.tcphdr.dport raddr m.tcphdr.sport
  have key : t' = t ∨ Net.tcpRecv t.net m len raddr = some t'.net ∧ Keeps t t' ∧ ∀ L', t'.net.Inv L' → t'.Inv L' := by
    unfold Sys.tcpRecv at hs
    unfold Net.tcpRecv
    rw [hp, bind_some] at hs ⊢
    split at hs
    · exact .inl (some.inj hs).symm
    next h0 =>
    split at hs
    · exact .inl (some.inj hs).symm
    next hw =>
    rw [if_neg h0, if_neg hw]
    obtain ⟨hm, -⟩ := hspec.resolve_left h0
    have hal := (h.tables.mem _ _ p hm).1
    refine .inr ?_
    unfold Sys.tcpRecvFound at hs
    unfold Net.tcpRecvFound
    dsimp only at hs ⊢
    obtain ⟨hl, -⟩ := tcpRecvSwitch_links ((t.net.conn p).newMbuf m) t.net.brk len raddr m.tcphdr.sport
    have hput := sameFiles_putConn t.net p
      (tcpRecvSwitch_home ((t.net.conn p).newMbuf m) t.net.brk len raddr m.tcphdr.sport)
    have hL := h.tables.putConn (p := p) hl fun _ => .inr (.inr ⟨_, _, hm⟩)
    have hfreed : (tcpRecvSwitch ((t.net.conn p).newMbuf m) t.net.brk len raddr m.tcphdr.sport).2 = true → _ :=
      fun hf => hg.freed hp hf
    generalize tcpRecvSwitch ((t.net.conn p).newMbuf m) t.net.brk len raddr m.tcphdr.sport = r at hs hput hL hfreed ⊢
    generalize RxRec.mk raddr m.tcphdr.sport m.tcphdr (t.net.scbs p) r.1.scb = rx at hs ⊢
    have hput' : SameFiles t.net
        { t.net.putConn p r.1 with hist := update t.net.hist p (t.net.hist p ++ [rx]) } :=
      ⟨hput.f, hput.acpt, rfl, rfl⟩
    have hL' : Stack.Inv
        { t.net.putConn p r.1 with hist := update t.net.hist p (t.net.hist p ++ [rx]) } L :=
      InvBut.of_eq hL rfl rfl rfl rfl
    split at hs
    · next hf =>
      rw [if_pos hf]
      obtain ⟨h2, h3, h4⟩ := (h.same hput' hL').freeSockCb hal (by rw [hput'.f]; exact (hfreed hf).1) hs
      exact ⟨h2, (Keeps.of_net hput').trans h3, h4⟩
    · next hf =>
      rw [if_neg hf, ← some.inj hs]
      exact ⟨rfl, Keeps.of_net hput', fun L' hi => h.same hput' hi⟩
  rcases key with rfl | ⟨hnet, hkeep, hinv⟩
  · exact hsame
  obtain ⟨L', hi, -⟩ := tcpRecv_inv h.tables (fun q hq _ _ hd => by
    by_contra hf
    exact (hg.freed hq (by simpa using hf)).2 hd) hnet
  exact ⟨hkeep, L', hinv L' hi⟩

/-! ### Other calls -/

theorem SockCall.sameFiles {c : SockCall} (hs : n.step (c.op p) = some n') : SameFiles n n' := by
  cases c with
  | listen sport =>
    obtain ⟨-, hs⟩ := usable_of_some hs
    cases hs
    unfold socklisten getSpecifiedSport
    split
    · refine sameFiles_setScb n p ?_ ?_ <;> split <;> rfl
    · have h1 : SameFiles n { n with sportTable := update n.sportTable sport.toNat true } :=
        ⟨fun _ => rfl, fun _ => rfl, rfl, rfl⟩
      refine h1.trans (sameFiles_setScb _ p ?_ ?_) <;> split <;> rfl
  | connect raddr dport =>
    obtain ⟨-, hs⟩ := usable_of_some hs
    obtain ⟨r, hr, hs⟩ := bind_eq_some_iff.mp hs
    obtain ⟨n1, hadd, hs⟩ := bind_eq_some_iff.mp hs
    obtain ⟨hscbs, hal, hbrk, -⟩ := getNewSport_frame hr
    have h1 : SameFiles n r.1 := ⟨fun q => by rw [hscbs], fun q => by rw [hscbs], hal, hbrk⟩
    have hset : SameFiles r.1 (r.1.setScb p { r.1.scbs p with raddr := raddr, sport := r.2, dport := dport }) :=
      sameFiles_setScb r.1 p rfl rfl
    have h2 := h1.trans (hset.trans (sameFiles_linkClosed.addSockCb hadd))
    split at hs
    · obtain ⟨c, hc, rfl⟩ := map_eq_some_iff.mp hs
      refine h2.trans (sameFiles_putConn n1 p ?_)
      unfold tcpConnect at hc
      split at hc
      · cases hc
      · cases hc
        exact ⟨rfl, rfl, rfl, rfl⟩
    · cases hs
      exact h2
  | send m flg =>
    obtain ⟨-, hs⟩ := usable_of_some hs
    unfold socksend at hs
    split at hs
    · obtain ⟨r, hr, rfl⟩ := map_eq_some_iff.mp hs
      exact sameFiles_putConn n p (tcpSend_home hr)
    · cases hs
      exact .refl n

theorem udpRecv_sameFiles {hdr : UdpHdr} (hs : udpRecv n m len raddr hdr = some n') : SameFiles n n' := by
  unfold udpRecv at hs
  split at hs
  · cases hs
    exact .refl n
  split at hs
  · cases hs
    exact .refl n
  obtain ⟨p, hp, rfl⟩ := map_eq_some_iff.mp hs
  split
  · exact .refl n
  · refine sameFiles_putConn n p ?_
    simp only [conn, setScb, update_self]
    split <;> exact ⟨rfl, rfl, rfl, rfl⟩

end

end InternetOs.Sys
