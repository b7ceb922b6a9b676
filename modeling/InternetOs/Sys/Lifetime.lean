import InternetOs.Sys.FileInv

/-!
# The lifetime of files and sockets

Over the file table, the descriptors.  In every state of a run in which only `fileclose` takes a file from its block

    slot x holds f → f is alive, and ref f = number of slots that hold f     (Tasks.Inv.counted)
    f waits for accept → ref f = 1, and at most one slot holds f             (Tasks.Inv.pending)

`free_sock_cb` for an arriving segment frees the file too, while descriptors still hold it (socketLifetime_reset).
-/

namespace InternetOs.Sys

open Net SockCbState Function List Option Ftable Tasks

/-- What `sockclose` needs when the last reference to the socket goes: nobody waits in it for `accept`, and the
block is not freed while it is linked without a remote port. -/
def CloseOk (n : Stack) (p : Nat) : Prop := (n.scbs p).acptScb = 0 ∧ TableStep n (.sockclose p)

/-- The same for a slot of a process that exits, if no other process holds the file. -/
def ExitOk (s : Tasks) (pr : Pid) (fd : Fd) : Prop :=
  s.ofile (pr, fd) ≠ 0 → (s.ft.files (s.ofile (pr, fd))).type = .sock →
    (∀ x, s.ofile x = s.ofile (pr, fd) → x.1 = pr) → CloseOk s.ft.net (s.ft.files (s.ofile (pr, fd))).scb

/-- The steps that keep the files. -/
def FileStep (s : Tasks) : Ev → Prop
  | .socket pr t => t ≠ .unknown ∧ ∃ fd, s.ofile (pr, fd) = 0
  | .close pr fd => (s.ft.files (s.ofile (pr, fd))).type = .sock → (s.ft.files (s.ofile (pr, fd))).ref = 1 →
      CloseOk s.ft.net (s.ft.files (s.ofile (pr, fd))).scb
  | .exit pr => ∀ fd, ExitOk s pr fd
  | .accept pr fd => (∃ fd', s.ofile (pr, fd') = 0) ∧ ∀ p, s.argsock pr fd = some p →
      (s.ft.net.scbs p).acptScb ≠ 0 → ∀ x, s.ofile x ≠ (s.ft.net.scbs (s.ft.net.scbs p).acptScb).f
  | .acceptBad pr => ∀ a, s.accepting pr = some a → a.newFd.val ≠ 0
  | .sock pr fd c => ∀ p, s.argsock pr fd = some p → p ≠ 0 → TableStep s.ft.net (c.op p)
  | .tcpRecv m _ raddr => RecvOk s.ft.net m raddr
  | _ => True

/-! ## The invariant -/

structure Tasks.Inv (s : Tasks) (L : Tab → Nat → List Nat) : Prop where
  ft : s.ft.Inv L
  slot : ∀ x, s.ofile x ≠ 0 → s.ft.alive (s.ofile x) = true
  counted : ∀ f, s.ft.alive f = true → ¬ Pending s.ft.net f →
    (s.ft.files f).ref = holders s.ofile f ∧ 0 < (s.ft.files f).ref
  pending : ∀ f, Pending s.ft.net f → (s.ft.files f).ref = 1 ∧ holders s.ofile f ≤ 1
  /-- Only the process that waits for it holds a file that waits. -/
  waits : ∀ x, s.ofile x ≠ 0 → Pending s.ft.net (s.ofile x) → ∃ a, s.accepting x.1 = some a ∧ a.newFd = x.2
  accepting : ∀ pr a, s.accepting pr = some a → s.ft.net.alive a.scb = true ∧ (s.ft.net.scbs a.scb).f ≠ 0 ∧
    (s.ft.net.scbs a.scb).acptScb = a.newScb ∧ a.newScb ≠ 0 ∧
    s.ofile (pr, a.newFd) = (s.ft.net.scbs a.newScb).f
  dead : ∀ pr, s.live pr = false → s.accepting pr = none ∧ ∀ fd, s.ofile (pr, fd) = 0

namespace Tasks.Inv

section
variable {s s' : Tasks} {L L' : Tab → Nat → List Nat} {t : Ftable} {x y : Pid × Fd} {pr np : Pid} {f : Nat}
  {a : Accepting} {n : Stack} {fd : Fd} {p : Nat}

theorem not_pending (h : s.Inv L) (hx : s.ofile x ≠ 0) (hw : s.accepting x.1 = none) :
    ¬ Pending s.ft.net (s.ofile x) := by
  intro hp
  obtain ⟨a, ha, -⟩ := h.waits x hx hp
  rw [hw] at ha
  cases ha

theorem ne_zero (h : s.Inv L) (hf : s.ft.alive f = true) : f ≠ 0 := Nat.ne_of_gt (h.ft.fresh f hf).1

theorem pending_ne_zero (h : s.Inv L) (hf : Pending s.ft.net f) : f ≠ 0 := h.ne_zero (h.ft.pending_alive hf).1

theorem accepting_slot (h : s.Inv L) (ha : s.accepting pr = some a) :
    Pending s.ft.net (s.ofile (pr, a.newFd)) := by
  obtain ⟨h1, h2, h3, h4, h5⟩ := h.accepting pr a ha
  exact ⟨a.scb, h1, h2, by rw [h3]; exact h4, by rw [h3, h5]⟩

theorem keeps (h : s.Inv L) (hk : Keeps s.ft t) (hi : t.Inv L') : Inv { s with ft := t } L' where
  ft := hi
  slot x hx := by simpa only [hk.alive] using h.slot x hx
  counted f hf hp := by
    rw [hk.alive] at hf
    rw [hk.pending] at hp
    rw [hk.files]
    exact h.counted f hf hp
  pending f hp := by
    rw [hk.pending] at hp
    rw [hk.files]
    exact h.pending f hp
  waits x hx hp := h.waits x hx (hk.pending.mp hp)
  accepting pr a ha := by
    obtain ⟨h1, h2, h3, h4, h5⟩ := h.accepting pr a ha
    rw [hk.f, hk.f, hk.acpt, hk.open_ _ h2]
    exact ⟨h1, h2, h3, h4, h5⟩
  dead := h.dead

/-- A process that waits does so in another slot than an empty one. -/
theorem accepting_ne (h : s.Inv L) (ha : s.accepting pr = some a) (hy : s.ofile y = 0) : (pr, a.newFd) ≠ y := by
  rintro rfl
  exact h.pending_ne_zero (h.accepting_slot ha) hy

/-- A file that waits does so for the process of its slot. -/
def WaitsIn (n : Stack) (acc : Pid → Option Accepting) (z : Pid × Fd) (f : Nat) : Prop :=
  Pending n f → ∃ a, acc z.1 = some a ∧ a.newFd = z.2

theorem slots_update (P : Pid × Fd → Nat → Prop) {v : Nat} (hv : v ≠ 0 → P y v)
    (hz : ∀ z, z ≠ y → s.ofile z ≠ 0 → P z (s.ofile z)) (z : Pid × Fd) (h0 : update s.ofile y v z ≠ 0) :
    P z (update s.ofile y v z) :=
  (forall_update_iff s.ofile fun z v => v ≠ 0 → P z v).mpr ⟨hv, hz⟩ z h0

section
variable (h : s.Inv L)
include h

theorem dead_update {v : Nat} (hv : v ≠ 0 → s.live y.1 = true) (hpr : s.live pr = false) (fd : Fd) :
    update s.ofile y v (pr, fd) = 0 := by
  by_contra h0
  refine slots_update (fun z _ => s.live z.1 ≠ false) (fun h0 => by rw [hv h0]; decide) (fun z _ hz hl => ?_) _ h0 hpr
  exact hz ((h.dead _ hl).2 _)

theorem waits_other (ha : s.accepting pr = some a) (hx : s.ofile x ≠ 0)
    (hp : Pending s.ft.net (s.ofile x)) (hne : x ≠ (pr, a.newFd)) :
    ∃ b, update s.accepting pr none x.1 = some b ∧ b.newFd = x.2 := by
  obtain ⟨b, hb, hfd⟩ := h.waits x hx hp
  refine ⟨b, ?_, hfd⟩
  rw [update_of_ne]
  · exact hb
  · intro hx1
    rw [hx1, ha] at hb
    cases hb
    exact hne (by rw [hfd, ← hx1])

/-- The references to the file in slot `x` change by slot `y`, which is cleared or gets the file. -/
theorem setRef {v r : Nat} (hx : s.ofile x ≠ 0) (hxw : s.accepting x.1 = none)
    (hv : v ≠ 0 → v = s.ofile x ∧ s.live y.1 = true) (hy : s.ofile y ≠ 0 → s.ofile y = s.ofile x)
    (hr : r = holders (update s.ofile y v) (s.ofile x)) (hpos : 0 < r) :
    Inv { s with
      ft := s.ft.setFile (s.ofile x) { s.ft.files (s.ofile x) with ref := r }
      ofile := update s.ofile y v } L := by
  have hnp := h.not_pending hx hxw
  have hother : ∀ {g}, g ≠ 0 → g ≠ s.ofile x → holders (update s.ofile y v) g = holders s.ofile g := by
    intro g h0 hg
    refine holders_update_of_ne ?_ ?_
    · rintro rfl
      exact hg (hy h0)
    · rintro rfl
      exact hg (hv h0).1
  refine ⟨h.ft.setRef _ _, slots_update (fun _ v => s.ft.alive v = true) (fun h0 => ?_) fun z _ => h.slot z,
    fun g hg hp => ?_, fun g hp => ?_, slots_update (WaitsIn s.ft.net s.accepting) (fun h0 hp => ?_)
      fun z _ => h.waits z, fun pr a ha => ?_,
    fun pr hpr => ⟨(h.dead pr hpr).1, h.dead_update (fun h0 => (hv h0).2) hpr⟩⟩
  · rw [(hv h0).1]
    exact h.slot x hx
  · dsimp only [setFile]
    by_cases hgf : g = s.ofile x
    · rw [hgf, update_self]
      exact ⟨hr, hpos⟩
    · rw [update_of_ne hgf, hother (h.ne_zero hg) hgf]
      exact h.counted g hg hp
  · have hgf : g ≠ s.ofile x := by
      rintro rfl
      exact hnp hp
    dsimp only [setFile]
    rw [update_of_ne hgf, hother (h.pending_ne_zero hp) hgf]
    exact h.pending g hp
  · rw [(hv h0).1] at hp
    exact absurd hp hnp
  · have hpa := h.accepting_slot ha
    have hne : (pr, a.newFd) ≠ y := by
      rintro rfl
      exact hnp (hy (h.pending_ne_zero hpa) ▸ hpa)
    dsimp only [setFile]
    rw [update_of_ne hne]
    exact h.accepting pr a ha

theorem copySlot (hx : s.ofile x ≠ 0) (hxw : s.accepting x.1 = none) (hy : s.ofile y = 0)
    (hyl : s.live y.1 = true) :
    Inv { s with
      ft := s.ft.setFile (s.ofile x) { s.ft.files (s.ofile x) with ref := (s.ft.files (s.ofile x)).ref + 1 }
      ofile := update s.ofile y (s.ofile x) } L := by
  refine h.setRef hx hxw (fun _ => ⟨rfl, hyl⟩) (fun h0 => absurd hy h0) ?_ (Nat.succ_pos _)
  rw [holders_update_self (by rw [hy]; exact Ne.symm hx), (h.counted _ (h.slot x hx) (h.not_pending hx hxw)).1]

theorem dropRef (hx : s.ofile x ≠ 0) (hxw : s.accepting x.1 = none) (hr : 1 < (s.ft.files (s.ofile x)).ref) :
    Inv { s with
      ft := s.ft.setFile (s.ofile x) { s.ft.files (s.ofile x) with ref := (s.ft.files (s.ofile x)).ref - 1 }
      ofile := update s.ofile x 0 } L := by
  have hcl := holders_update_clear (g := s.ofile) (a := x) rfl (Ne.symm hx)
  have hcount := (h.counted _ (h.slot x hx) (h.not_pending hx hxw)).1
  exact h.setRef hx hxw (absurd rfl) (fun _ => rfl) (by omega) (by omega)

/-- The last reference to a file is cleared; the block that has the file, if any, loses it. -/
theorem dropLast (hx : s.ofile x ≠ 0) (hxw : s.accepting x.1 = none) (hr : (s.ft.files (s.ofile x)).ref = 1)
    (hnf : ∀ q, s.ft.net.alive q = true →
      (n.scbs q).f = if (s.ft.net.scbs q).f = s.ofile x then 0 else (s.ft.net.scbs q).f)
    (hna : ∀ q, (n.scbs q).acptScb = (s.ft.net.scbs q).acptScb) (hal : n.alive = s.ft.net.alive)
    (hbrk : n.brkScb = s.ft.net.brkScb)
    (hacpt : ∀ q, s.ft.net.alive q = true → (s.ft.net.scbs q).f = s.ofile x → (s.ft.net.scbs q).acptScb = 0)
    (hi : n.Inv L') :
    Inv { s with
      ft := { s.ft with
        net := n
        files := update s.ft.files (s.ofile x) { s.ft.files (s.ofile x) with ref := 0, type := .none }
        alive := update s.ft.alive (s.ofile x) false
        frees := s.ft.frees ++ [.file (s.ofile x)] }
      ofile := update s.ofile x 0 } L' := by
  have hnp := h.not_pending hx hxw
  have hone : holders s.ofile (s.ofile x) ≤ 1 := by
    rw [← (h.counted _ (h.slot x hx) hnp).1, hr]
  -- the same files wait as before
  have hpend : ∀ g, Pending n g ↔ Pending s.ft.net g := by
    intro g
    constructor
    · rintro ⟨q, hq, hqf, hqa, hg⟩
      rw [hal] at hq
      rw [hnf q hq] at hqf
      split at hqf
      · exact absurd rfl hqf
      rw [hna] at hqa hg
      obtain ⟨h1, h2⟩ := h.ft.acpt q hq hqf hqa
      rw [hnf _ h1, if_neg fun hfa => hnp ⟨q, hq, hqf, hqa, hfa⟩] at hg
      exact ⟨q, hq, hqf, hqa, hg⟩
    · rintro ⟨q, hq, hqf, hqa, hg⟩
      have hne : (s.ft.net.scbs q).f ≠ s.ofile x := fun hf => hqa (hacpt q hq hf)
      obtain ⟨h1, h2⟩ := h.ft.acpt q hq hqf hqa
      refine ⟨q, hal ▸ hq, by rw [hnf q hq, if_neg hne]; exact hqf, by rw [hna]; exact hqa, ?_⟩
      rw [hna, hnf _ h1, if_neg fun hfa => hnp ⟨q, hq, hqf, hqa, hfa⟩]
      exact hg
  refine ⟨h.ft.dropFile (h.slot x hx) hnf hna hal hbrk hnp hi,
    slots_update (fun _ v => update s.ft.alive (s.ofile x) false v = true) (absurd rfl) fun z hzx hz => ?_,
    fun g hg hp => ?_, fun g hp => ?_, slots_update (WaitsIn n s.accepting) (absurd rfl)
      fun z _ hz hp => h.waits z hz ((hpend _).mp hp), fun pr a ha => ?_,
    fun pr hpr => ⟨(h.dead pr hpr).1, h.dead_update (absurd rfl) hpr⟩⟩
  · rw [update_of_ne fun hf => hzx (holders_unique hone hf rfl)]
    exact h.slot z hz
  · dsimp only at hg hp ⊢
    rw [hpend] at hp
    obtain ⟨hgf, hg⟩ := update_false_iff.mp hg
    rw [update_of_ne hgf, holders_update_of_ne (Ne.symm hgf) (Ne.symm (h.ne_zero hg))]
    exact h.counted g hg hp
  · dsimp only at hp ⊢
    rw [hpend] at hp
    have hgf : g ≠ s.ofile x := by
      rintro rfl
      exact hnp hp
    rw [update_of_ne hgf, holders_update_of_ne (Ne.symm hgf) (Ne.symm (h.pending_ne_zero hp))]
    exact h.pending g hp
  · have hpa := h.accepting_slot ha
    have hne : (pr, a.newFd) ≠ x := by
      rintro rfl
      exact hnp hpa
    obtain ⟨h1, h2, h3, h4, h5⟩ := h.accepting pr a ha
    have h6 : (s.ft.net.scbs a.scb).f ≠ s.ofile x := by
      intro hf
      exact h4 (h3.symm.trans (hacpt _ h1 hf))
    have h7 := (h.ft.acpt a.scb h1 h2 (by rw [h3]; exact h4)).1
    rw [h3] at h7
    have h8 : (s.ft.net.scbs a.newScb).f ≠ s.ofile x := by
      rw [← h5]
      intro hf
      exact hnp (hf ▸ hpa)
    dsimp only
    rw [update_of_ne hne, hal, hnf _ h1, if_neg h6, hna, hnf _ h7, if_neg h8]
    exact ⟨h1, h2, h3, h4, h5⟩

/-- **`fileclose`** of the file in a slot.  The other files stay as they are, and may still be closed. -/
theorem closeSlot (hx : s.ofile x ≠ 0) (hxw : s.accepting x.1 = none)
    (hg : (s.ft.files (s.ofile x)).type = .sock → (s.ft.files (s.ofile x)).ref = 1 →
      CloseOk s.ft.net (s.ft.files (s.ofile x)).scb) (hs : fileclose s.ft (s.ofile x) = some t) :
    ∃ L', Inv { s with ft := t, ofile := update s.ofile x 0 } L' ∧
      ∀ g, t.alive g = true → (t.files g).type = (s.ft.files g).type ∧ (t.files g).scb = (s.ft.files g).scb ∧
        ((s.ft.files g).type = .sock → CloseOk s.ft.net (s.ft.files g).scb → CloseOk t.net (s.ft.files g).scb) := by
  have hal := h.slot x hx
  have href := (h.counted _ hal (h.not_pending hx hxw)).2
  unfold fileclose at hs
  by_cases hr : (s.ft.files (s.ofile x)).ref = 1
  swap
  · -- further references
    rw [filefree_more hal (by omega)] at hs
    cases hs
    refine ⟨L, h.dropRef hx hxw (by omega), fun g _ => ?_⟩
    by_cases hgf : g = s.ofile x
    · subst hgf
      simp [setFile]
    · simp [setFile, hgf]
  rw [filefree_last h.ft hal hr, bind_some] at hs
  simp only [Bool.true_eq_false, if_false] at hs
  split at hs
  · next hsock =>
    -- a socket: its block loses the file and is closed
    obtain ⟨hpal, hpf⟩ := h.ft.scb _ hal hsock
    obtain ⟨hacpt, htab⟩ := hg hsock hr
    generalize hpd : (s.ft.files (s.ofile x)).scb = p at hs hpal hpf hacpt htab
    rw [if_pos hpal] at hs
    have honly : ∀ q, s.ft.net.alive q = true → (s.ft.net.scbs q).f = s.ofile x → q = p := by
      intro q hq hqf
      have := (h.ft.file q hq (by rw [hqf]; exact hx)).2.2
      rw [hqf, hpd] at this
      exact this.symm
    have hother : ∀ q, q ≠ p → (s.ft.net.setScb p { s.ft.net.scbs p with f := 0 }).scbs q = s.ft.net.scbs q :=
      fun q hq => by simp [hq]
    have hself : (s.ft.net.setScb p { s.ft.net.scbs p with f := 0 }).scbs p = { s.ft.net.scbs p with f := 0 } := by
      simp
    have hi : (s.ft.net.setScb p { s.ft.net.scbs p with f := 0 }).Inv L :=
      h.ft.tables.setScb ⟨rfl, rfl, rfl, rfl⟩ fun hd => .inr (.inl hd)
    have h1 := h.dropLast (n := s.ft.net.setScb p { s.ft.net.scbs p with f := 0 }) hx hxw hr (fun q hq => by
        by_cases hqp : q = p
        · rw [hqp, hself, if_pos hpf]
        · rw [hother q hqp, if_neg fun hqf => hqp (honly q hq hqf)]) (fun q => by
        by_cases hqp : q = p
        · rw [hqp, hself]
        · rw [hother q hqp]) rfl rfl (fun q hq hqf => by rw [honly q hq hqf]; exact hacpt) hi
    have htab' : TableStep (s.ft.net.setScb p { s.ft.net.scbs p with f := 0 }) (.sockclose p) := by
      intro hl
      rw [hi.linked_iff, ← h.ft.tables.linked_iff] at hl
      rw [hself]
      exact htab hl
    subst hpd
    obtain ⟨hnet, hkeep, L', hi', hsub⟩ := h1.ft.sockclose hpal (by rw [hself]) htab' hs
    refine ⟨L', h1.keeps hkeep hi', fun g hgal => ?_⟩
    rw [hkeep.alive] at hgal
    obtain ⟨hgf, hgal⟩ := update_false_iff.mp hgal
    rw [hkeep.files]
    dsimp only
    rw [update_of_ne hgf]
    refine ⟨rfl, rfl, fun hgs hgc => ?_⟩
    obtain ⟨hga, hgt⟩ := hgc
    have hqp : (s.ft.files g).scb ≠ (s.ft.files (s.ofile x)).scb := by
      intro hq
      have := (h.ft.scb g hgal hgs).2
      rw [hq, hpf] at this
      exact hgf this.symm
    have hsame := sockclose_others hnet _ hqp
    rw [hother _ hqp] at hsame
    refine ⟨by rw [hsame]; exact hga, fun hl => ?_⟩
    rw [hsame]
    refine hgt ?_
    obtain ⟨tb, i, hm⟩ := hi'.tables.linked_iff.mp hl
    exact h.ft.tables.linked_iff.mpr ⟨tb, i, (hsub tb i).subset hm⟩
  · next hsock =>
    -- no block has this file
    cases hs
    have hnone : ∀ q, s.ft.net.alive q = true → (s.ft.net.scbs q).f ≠ s.ofile x := by
      intro q hq hqf
      have := (h.ft.file q hq (by rw [hqf]; exact hx)).2.1
      rw [hqf] at this
      exact hsock this
    refine ⟨L, h.dropLast (n := s.ft.net) hx hxw hr (fun q hq => by rw [if_neg (hnone q hq)]) (fun _ => rfl) rfl rfl
      (fun q hq hqf => absurd hqf (hnone q hq)) h.ft.tables, fun g hgal => ?_⟩
    obtain ⟨hgf, -⟩ := update_false_iff.mp hgal
    dsimp only
    rw [update_of_ne hgf]
    exact ⟨rfl, rfl, fun _ hok => hok⟩

theorem fork (hw : s.accepting pr = none) (hs : fork s pr np = some s') : s'.Inv L := by
  unfold Sys.fork at hs
  split at hs
  · cases hs
  next hnp =>
  -- the loop: the slots of the new process that are still to come are empty
  refine (foldlM_inv (I := fun fds s => s.Inv L ∧ s.accepting pr = none ∧ s.live np = true ∧ fds.Nodup ∧
    ∀ fd ∈ fds, s.ofile (np, fd) = 0) ?_ hs ⟨?_, hw, by simp, nodup_finRange _, fun fd _ => ?_⟩).1
  · rintro fd fds s s' ⟨h, hw, hnl, hnd, hempty⟩ hs
    obtain ⟨hfd, hnd⟩ := nodup_cons.mp hnd
    unfold forkFd at hs
    dsimp only at hs
    split at hs
    · cases hs
      exact ⟨h, hw, hnl, hnd, fun fd' hfd' => hempty fd' (mem_cons_of_mem _ hfd')⟩
    · next hx =>
      have hal := h.slot (pr, fd) hx
      rw [filedup_eq hal (h.counted _ hal (h.not_pending hx hw)).2] at hs
      cases hs
      refine ⟨h.copySlot (x := (pr, fd)) (y := (np, fd)) hx hw (hempty fd mem_cons_self) hnl, hw, hnl, hnd,
        fun fd' hfd' => ?_⟩
      show update s.ofile (np, fd) _ (np, fd') = 0
      rw [update_of_ne]
      · exact hempty fd' (mem_cons_of_mem _ hfd')
      · rintro hne
        exact hfd ((Prod.mk.inj hne).2 ▸ hfd')
  · refine ⟨h.ft, h.slot, h.counted, h.pending, h.waits, h.accepting, fun q hq => h.dead q ?_⟩
    have hne : q ≠ np := by
      rintro rfl
      simp at hq
    dsimp only at hq
    rwa [update_of_ne hne] at hq
  · exact (h.dead np (by simpa using hnp)).2 fd

/-- One round of the loop in `exit`; the slots that are left may still be closed. -/
theorem exitFd (hw : s.accepting pr = none) (hg : ∀ fd, ExitOk s pr fd) (hs : s.exitFd pr fd = some s') :
    (∃ L', s'.Inv L') ∧ s'.accepting pr = none ∧ (∀ fd', ExitOk s' pr fd') ∧ s'.ofile (pr, fd) = 0 ∧
      ∀ fd', s.ofile (pr, fd') = 0 → s'.ofile (pr, fd') = 0 := by
  unfold Tasks.exitFd at hs
  dsimp only at hs
  split at hs
  · next hx =>
    cases hs
    exact ⟨⟨L, h⟩, hw, hg, hx, fun _ h0 => h0⟩
  next hx =>
  obtain ⟨t, ht, rfl⟩ := map_eq_some_iff.mp hs
  -- with one reference left no other process holds the file
  have hlast : (s.ft.files (s.ofile (pr, fd))).type = .sock → (s.ft.files (s.ofile (pr, fd))).ref = 1 →
      CloseOk s.ft.net (s.ft.files (s.ofile (pr, fd))).scb := by
    intro hsock hr
    refine hg fd hx hsock fun y hy => ?_
    have hone := (h.counted _ (h.slot _ hx) (h.not_pending hx hw)).1
    rw [hr] at hone
    rw [holders_unique (le_of_eq hone.symm) hy rfl]
  obtain ⟨L', h', hframe⟩ := h.closeSlot hx hw hlast ht
  have hother : ∀ fd', fd' ≠ fd → update s.ofile (pr, fd) 0 (pr, fd') = s.ofile (pr, fd') :=
    fun fd' hne => update_of_ne (fun e => hne (Prod.mk.inj e).2) _ _
  refine ⟨⟨L', h'⟩, hw, fun fd' hx' hsock honly => ?_, update_self _ _ _, fun fd' h0 => ?_⟩
  · have hne : fd' ≠ fd := by
      rintro rfl
      exact hx' (update_self _ _ _)
    have hal := h'.slot (pr, fd') hx'
    dsimp only [setSlot] at hx' hsock honly hal ⊢
    rw [hother fd' hne] at hx' hsock honly hal ⊢
    obtain ⟨h1, h2, h3⟩ := hframe _ hal
    rw [h1] at hsock
    rw [h2]
    refine h3 hsock (hg fd' hx' hsock fun y hy => ?_)
    by_cases hyx : y = (pr, fd)
    · rw [hyx]
    · exact honly y (by rw [update_of_ne hyx]; exact hy)
  · show update s.ofile (pr, fd) 0 (pr, fd') = 0
    by_cases hne : fd' = fd
    · rw [hne, update_self]
    · rw [hother fd' hne]
      exact h0

theorem exit (hw : s.accepting pr = none) (hg : ∀ fd, ExitOk s pr fd)
    (hs : exit s pr = some s') : ∃ L', s'.Inv L' := by
  obtain ⟨s1, hfold, rfl⟩ := map_eq_some_iff.mp hs
  have hmem : ∀ fd : Fd, fd ∈ List.finRange nofile := mem_finRange
  obtain ⟨⟨L', h'⟩, hw', -, hall⟩ := foldlM_inv (I := fun fds s => (∃ L, s.Inv L) ∧ s.accepting pr = none ∧
    (∀ fd, ExitOk s pr fd) ∧ ∀ fd, fd ∈ fds ∨ s.ofile (pr, fd) = 0) (by
      rintro fd fds s s' ⟨⟨L, h⟩, hw, hg, hall⟩ hs
      obtain ⟨h1, hw1, hg1, h0, hkeep⟩ := h.exitFd hw hg hs
      refine ⟨h1, hw1, hg1, fun fd' => ?_⟩
      rcases hall fd' with hm | h0'
      · rcases mem_cons.mp hm with rfl | hm
        · exact .inr h0
        · exact .inl hm
      · exact .inr (hkeep fd' h0')) hfold ⟨⟨L, h⟩, hw, hg, fun fd => .inl (hmem fd)⟩
  refine ⟨L', h'.ft, h'.slot, h'.counted, h'.pending, h'.waits, h'.accepting, fun q hq => ?_⟩
  by_cases hqp : q = pr
  · subst hqp
    exact ⟨hw', fun fd => (hall fd).resolve_left not_mem_nil⟩
  · dsimp only at hq
    rw [update_of_ne hqp] at hq
    exact h'.dead q hq

/-- A new file in an empty slot; it may wait for the process of the slot. -/
theorem newSlot {file : File} {acc : Pid → Option Accepting}
    (hi : (s.ft.addFile file n).Inv L') (href : file.ref = 1) (hy : s.ofile y = 0) (hyl : s.live y.1 = true)
    (hpend : ∀ g, Pending n g → Pending s.ft.net g ∨ g = s.ft.brk ∧ ∃ a, acc y.1 = some a ∧ a.newFd = y.2)
    (hpend' : ∀ g, Pending s.ft.net g → Pending n g) (hwait : ∀ pr a, s.accepting pr = some a → acc pr = some a)
    (hacc : ∀ pr a, acc pr = some a → n.alive a.scb = true ∧ (n.scbs a.scb).f ≠ 0 ∧
      (n.scbs a.scb).acptScb = a.newScb ∧ a.newScb ≠ 0 ∧
      update s.ofile y s.ft.brk (pr, a.newFd) = (n.scbs a.newScb).f)
    (hdead : ∀ pr, s.live pr = false → acc pr = none) :
    Inv { s with
      ft := s.ft.addFile file n
      ofile := update s.ofile y s.ft.brk
      accepting := acc } L' := by
  have hb0 : s.ft.brk ≠ 0 := ne_of_gt h.ft.brk_pos
  have hfree : ∀ x, s.ofile x ≠ s.ft.brk := by
    intro x hx
    have := h.slot x (by rw [hx]; exact hb0)
    rw [hx, h.ft.not_alive_brk] at this
    cases this
  have hone : holders (update s.ofile y s.ft.brk) s.ft.brk = 1 := by
    rw [holders_update_self (by rw [hy]; exact Ne.symm hb0), Nat.add_eq_right]
    by_contra hpos
    obtain ⟨x, hx⟩ := exists_of_holders_pos (pos_of_ne_zero hpos)
    exact hfree x hx
  have hother : ∀ {g}, s.ft.alive g = true → g ≠ s.ft.brk ∧
      holders (update s.ofile y s.ft.brk) g = holders s.ofile g := by
    intro g hg
    have hgb : g ≠ s.ft.brk := ne_of_lt (h.ft.fresh g hg).2
    exact ⟨hgb, holders_update_of_ne (by rw [hy]; exact Ne.symm (h.ne_zero hg)) (Ne.symm hgb)⟩
  refine ⟨hi, slots_update (fun _ v => update s.ft.alive s.ft.brk true v = true) (fun _ => update_self ..)
      fun z _ hz => ?_, fun g hg hp => ?_, fun g hp => ?_,
    slots_update (WaitsIn n acc) (fun _ hp => ?_) fun z _ hz hp => ?_,
    hacc, fun pr hpr => ⟨hdead pr hpr, h.dead_update (fun _ => hyl) hpr⟩⟩
  · rw [update_of_ne (hfree z)]
    exact h.slot z hz
  · dsimp only [addFile] at hg hp ⊢
    by_cases hgb : g = s.ft.brk
    · rw [hgb, hone, update_self, href]
      exact ⟨rfl, Nat.one_pos⟩
    · rw [update_of_ne hgb] at hg ⊢
      rw [(hother hg).2]
      exact h.counted g hg fun hp' => hp (hpend' g hp')
  · dsimp only [addFile] at hp ⊢
    rcases hpend g hp with hp | ⟨rfl, -⟩
    · obtain ⟨hgb, hh⟩ := hother (h.ft.pending_alive hp).1
      rw [update_of_ne hgb, hh]
      exact h.pending g hp
    · rw [update_self]
      exact ⟨href, le_of_eq hone⟩
  · rcases hpend _ hp with hp | ⟨-, ha⟩
    · exact absurd rfl (hother (h.ft.pending_alive hp).1).1
    · exact ha
  · rcases hpend _ hp with hp | ⟨hb, -⟩
    · obtain ⟨a, ha, hfd⟩ := h.waits z hz hp
      exact ⟨a, hwait _ _ ha, hfd⟩
    · exact absurd hb (hfree z)

theorem accepting_newSock (hn : NewSock s.ft p n) (ha : s.accepting pr = some a) :
    n.alive a.scb = true ∧ (n.scbs a.scb).f ≠ 0 ∧ (n.scbs a.scb).acptScb = a.newScb ∧ a.newScb ≠ 0 ∧
      s.ofile (pr, a.newFd) = (n.scbs a.newScb).f := by
  obtain ⟨h1, h2, h3, h4, h5⟩ := h.accepting pr a ha
  have h6 := (h.ft.acpt a.scb h1 h2 (by rw [h3]; exact h4)).1
  rw [h3] at h6
  have hne := h.ft.ne_brkScb h1
  refine ⟨?_, ?_, ?_, h4, ?_⟩
  · exact (hn.old hne).trans h1
  · rw [hn.f _ hne]
    exact h2
  · rcases hn.acpt _ hne with heq | ⟨rfl, h0, -⟩
    · rw [heq]
      exact h3
    · exact absurd (h3.symm.trans h0) h4
  · rw [hn.f _ (h.ft.ne_brkScb h6)]
    exact h5

end

/-! ## System calls -/

theorem fdalloc_empty (hs : s.fdalloc pr = some fd) : s.ofile (pr, fd) = 0 := by
  simpa using find?_some hs

theorem fdalloc_exists (h0 : s.ofile (pr, fd) = 0) : ∃ fd', s.fdalloc pr = some fd' := by
  refine isSome_iff_exists.mp ?_
  unfold fdalloc
  rw [find?_isSome]
  exact ⟨fd, mem_finRange fd, by simpa using h0⟩

theorem argsock_spec (hs : s.argsock pr fd = some p) (h0 : p ≠ 0) :
    s.ofile (pr, fd) ≠ 0 ∧ (s.ft.files (s.ofile (pr, fd))).type = .sock ∧ (s.ft.files (s.ofile (pr, fd))).scb = p := by
  unfold argsock at hs
  dsimp only at hs
  split at hs
  · exact absurd (some.inj hs).symm h0
  next hx =>
  split at hs
  · split at hs
    · next ht => exact ⟨hx, ht, some.inj hs⟩
    · exact absurd (some.inj hs).symm h0
  · cases hs

section
variable (h : s.Inv L)
include h

theorem argsock_alive (hs : s.argsock pr fd = some p) (h0 : p ≠ 0) :
    s.ft.net.alive p = true ∧ (s.ft.net.scbs p).f = s.ofile (pr, fd) ∧ s.ofile (pr, fd) ≠ 0 := by
  obtain ⟨hx, ht, hp⟩ := argsock_spec hs h0
  obtain ⟨h1, h2⟩ := h.ft.scb _ (h.slot _ hx) ht
  rw [hp] at h1 h2
  exact ⟨h1, h2, hx⟩

theorem socket (hl : s.live pr = true) {ty : SockType} (ht : ty ≠ .unknown)
    (hfd : ∃ fd, s.ofile (pr, fd) = 0) (hs : sysSocket s pr ty = some s') : s'.Inv L := by
  obtain ⟨fd0, hfd0⟩ := hfd
  obtain ⟨fd, hfd⟩ := fdalloc_exists hfd0
  have hy := fdalloc_empty hfd
  obtain ⟨n, heq, hn, hi⟩ := sockalloc_spec h.ft ht
  unfold sysSocket at hs
  rw [heq, hfd] at hs
  cases hs
  have hpend : ∀ g, Pending n g ↔ Pending s.ft.net g := by
    intro g
    rw [h.ft.pending_newSock hn, or_iff_left]
    rintro ⟨-, -, ha, -⟩
    exact (h.ft.net_fresh ha).1.ne rfl
  refine h.newSlot (y := (pr, fd)) (h.ft.newSock hn hi) rfl hy hl (fun g hp => .inl ((hpend g).mp hp))
    (fun g hp => (hpend g).mpr hp) (fun _ _ ha => ha) (fun q a ha => ?_) fun q hq => (h.dead q hq).1
  rw [update_of_ne (h.accepting_ne ha hy)]
  exact h.accepting_newSock hn ha

/-- A file that gets no slot is freed again. -/
theorem openFull (hs : fileclose (s.ft.addFile ⟨.none, 1, 0, 0, 0⟩ s.ft.net) s.ft.brk = some t) :
    Inv { s with ft := t } L := by
  have hb : s.ft.alive s.ft.brk = false := h.ft.not_alive_brk
  have h1 := h.ft.newFile (show FileType.none ≠ .sock by decide)
  have hfile : (s.ft.addFile ⟨.none, 1, 0, 0, 0⟩ s.ft.net).files s.ft.brk = ⟨.none, 1, 0, 0, 0⟩ := by
    simp [addFile]
  have hal : (s.ft.addFile ⟨.none, 1, 0, 0, 0⟩ s.ft.net).alive s.ft.brk = true := by simp [addFile]
  unfold fileclose at hs
  rw [hfile, filefree_last h1 hal (by rw [hfile]), bind_some] at hs
  simp only [if_false, reduceCtorEq, Option.some.injEq] at hs
  have hnone : ∀ q, s.ft.net.alive q = true → (s.ft.net.scbs q).f ≠ s.ft.brk := fun q hq => h.ft.f_ne_brk hq
  have hnp : ¬ Pending s.ft.net s.ft.brk := by
    intro hp
    have := (h.ft.pending_alive hp).1
    rw [hb] at this
    cases this
  have h2 := h1.dropFile (n := s.ft.net) hal (fun q hq => (if_neg (hnone q hq)).symm) (fun _ => rfl) rfl rfl hnp
    h.ft.tables
  have hfiles : ∀ g, s.ft.alive g = true → t.files g = s.ft.files g ∧ t.alive g = true := by
    intro g hg
    have hgb : g ≠ s.ft.brk := ne_of_lt (h.ft.fresh g hg).2
    rw [← hs]
    simp [addFile, hgb, hg]
  have hold : ∀ g, t.alive g = true → s.ft.alive g = true := by
    intro g hg
    rw [← hs] at hg
    obtain ⟨hgb, hg⟩ := update_false_iff.mp hg
    simpa [addFile, hgb] using hg
  have hnet : t.net = s.ft.net := by rw [← hs]; rfl
  refine ⟨hs ▸ h2, fun x hx => (hfiles _ (h.slot x hx)).2, fun g hg hp => ?_, fun g hp => ?_, ?_, ?_, h.dead⟩
  · rw [hnet] at hp
    rw [(hfiles g (hold g hg)).1]
    exact h.counted g (hold g hg) hp
  · rw [hnet] at hp
    rw [(hfiles g (h.ft.pending_alive hp).1).1]
    exact h.pending g hp
  · rw [hnet]
    exact h.waits
  · rw [hnet]
    exact h.accepting

theorem openFile (hl : s.live pr = true) {type : FileType} (ht : type ≠ .sock)
    (hs : sysOpen s pr type = some s') : s'.Inv L := by
  unfold sysOpen at hs
  rw [filealloc_eq h.ft, bind_some] at hs
  cases hfd : s.fdalloc pr with
  | some fd =>
    rw [hfd] at hs
    have hy := fdalloc_empty hfd
    have heq : (s.ft.addFile ⟨.none, 1, 0, 0, 0⟩ s.ft.net).setFile s.ft.brk
        { (s.ft.addFile ⟨.none, 1, 0, 0, 0⟩ s.ft.net).files s.ft.brk with type := type } =
          s.ft.addFile ⟨type, 1, 0, 0, 0⟩ s.ft.net := by
      simp [addFile, setFile]
    rw [heq] at hs
    cases hs
    refine h.newSlot (y := (pr, fd)) (h.ft.newFile ht) rfl hy hl (fun g hp => .inl hp) (fun g hp => hp)
      (fun _ _ ha => ha) (fun q a ha => ?_) fun q hq => (h.dead q hq).1
    rw [update_of_ne (h.accepting_ne ha hy)]
    exact h.accepting q a ha
  | none =>
    rw [hfd] at hs
    obtain ⟨t, ht, rfl⟩ := map_eq_some_iff.mp hs
    exact h.openFull ht

/-- `accept` puts the file of the block that waits into an empty slot. -/
theorem acceptSlot (hp : s.ft.net.alive a.scb = true)
    (hf : (s.ft.net.scbs a.scb).f ≠ 0) (ha : (s.ft.net.scbs a.scb).acptScb = a.newScb) (h0 : a.newScb ≠ 0)
    (hnone : ∀ x, s.ofile x ≠ (s.ft.net.scbs a.newScb).f) (hy : s.ofile (pr, a.newFd) = 0) (hl : s.live pr = true)
    (hw : s.accepting pr = none) :
    Inv { s with
      ofile := update s.ofile (pr, a.newFd) (s.ft.net.scbs a.newScb).f
      accepting := update s.accepting pr (some a) } L := by
  have hpend : Pending s.ft.net (s.ft.net.scbs a.newScb).f := ⟨a.scb, hp, hf, by rw [ha]; exact h0, by rw [ha]⟩
  have hne0 := h.pending_ne_zero hpend
  have hno : holders s.ofile (s.ft.net.scbs a.newScb).f = 0 := by
    by_contra hpos
    obtain ⟨x, hx⟩ := exists_of_holders_pos (pos_of_ne_zero hpos)
    exact hnone x hx
  refine ⟨h.ft, slots_update (fun _ v => s.ft.alive v = true)
    (fun _ => (h.ft.pending_alive hpend).1) fun z _ => h.slot z,
    fun g hg hp => ?_, fun g hp => ?_, slots_update (WaitsIn s.ft.net (update s.accepting pr (some a)))
      (fun _ _ => ⟨a, update_self .., rfl⟩) fun z _ hz hp => ?_, fun q b hb => ?_,
        fun q hq => ⟨?_, h.dead_update (fun _ => hl) hq⟩⟩
  · have hgf : g ≠ (s.ft.net.scbs a.newScb).f := by
      rintro rfl
      exact hp hpend
    rw [holders_update_of_ne (by rw [hy]; exact Ne.symm (h.ne_zero hg)) (Ne.symm hgf)]
    exact h.counted g hg hp
  · by_cases hgf : g = (s.ft.net.scbs a.newScb).f
    · subst hgf
      rw [holders_update_self (by rw [hy]; exact Ne.symm hne0), hno]
      exact ⟨(h.pending _ hp).1, le_rfl⟩
    · rw [holders_update_of_ne (by rw [hy]; exact Ne.symm (h.pending_ne_zero hp)) (Ne.symm hgf)]
      exact h.pending g hp
  · obtain ⟨b, hb, hfd⟩ := h.waits z hz hp
    refine ⟨b, ?_, hfd⟩
    rw [update_of_ne]
    · exact hb
    · intro hz1
      rw [hz1, hw] at hb
      cases hb
  · dsimp only at hb ⊢
    by_cases hq : q = pr
    · subst hq
      rw [update_self] at hb
      cases hb
      rw [update_self]
      exact ⟨hp, hf, ha, h0, rfl⟩
    · rw [update_of_ne hq] at hb
      rw [update_of_ne fun e => hq (Prod.mk.inj e).1]
      exact h.accepting q b hb
  · have hne : q ≠ pr := by
      rintro rfl
      rw [hl] at hq
      cases hq
    exact (update_of_ne hne _ _).trans (h.dead q hq).1

theorem accept (hl : s.live pr = true) (hw : s.accepting pr = none)
    (hg : FileStep s (.accept pr fd)) (hs : sysSockaccept s pr fd = some s') : ∃ L', s'.Inv L' := by
  obtain ⟨p, hp, hs⟩ := bind_eq_some_iff.mp hs
  split at hs
  · cases hs
    exact ⟨L, h⟩
  next h0 =>
  obtain ⟨hal, hpf, hx⟩ := h.argsock_alive hp h0
  rw [if_pos hal] at hs
  obtain ⟨r, hr, hs⟩ := bind_eq_some_iff.mp hs
  obtain ⟨fd', hfd', rfl⟩ := map_eq_some_iff.mp hs
  have hy := fdalloc_empty hfd'
  rcases sockaccept_cases h.ft hal (by rw [hpf]; exact hx) hr with ⟨ha, rfl⟩ | ⟨ha, n, L', rfl, hn, hpa, hi⟩
  · exact ⟨L, h.acceptSlot (a := ⟨p, _, fd'⟩) hal (by rw [hpf]; exact hx) rfl ha (hg.2 p hp ha) hy hl hw⟩
  · have hpb := h.ft.ne_brkScb hal
    refine ⟨L', h.newSlot (y := (pr, fd')) (h.ft.newSock hn hi) rfl hy hl (fun g hp => ?_) (fun g hp => ?_)
      (fun q a hqa => ?_) (fun q a hqa => ?_) fun q hq => ?_⟩
    · rcases (h.ft.pending_newSock hn).mp hp with hp | ⟨hb, -⟩
      · exact .inl hp
      · exact .inr ⟨hb, _, update_self _ _ _, rfl⟩
    · exact (h.ft.pending_newSock hn).mpr (.inl hp)
    · rw [update_of_ne]
      · exact hqa
      · rintro rfl
        rw [hw] at hqa
        cases hqa
    · by_cases hq : q = pr
      · subst hq
        rw [update_self] at hqa
        cases hqa
        rw [update_self, hn.alive, update_of_ne hpb, hn.f p hpb, hpa, hn.newF, hpf]
        exact ⟨hal, hx, rfl, ne_of_gt h.ft.tables.brk_pos, rfl⟩
      · rw [update_of_ne hq] at hqa
        rw [update_of_ne (h.accepting_ne hqa hy)]
        exact h.accepting_newSock hn hqa
    · rw [update_of_ne]
      · exact (h.dead q hq).1
      · rintro rfl
        rw [hl] at hq
        cases hq

/-- The accepted block waits no longer; its file has one reference, from the slot of the process. -/
theorem acceptDone (hs : acceptDone s pr = some s') : s'.Inv L := by
  obtain ⟨a, ha, hs⟩ := bind_eq_some_iff.mp hs
  split at hs
  swap
  · cases hs
  cases hs
  obtain ⟨h1, h2, h3, h4, h5⟩ := h.accepting pr a ha
  obtain ⟨h6, h7⟩ := h.ft.acpt a.scb h1 h2 (by rw [h3]; exact h4)
  rw [h3] at h6 h7
  have hpa := h.accepting_slot ha
  have hi : (s.ft.net.setScb a.scb { s.ft.net.scbs a.scb with acptScb := 0 }).Inv L :=
    h.ft.tables.setScb ⟨rfl, rfl, rfl, rfl⟩ fun hd => .inr (.inl hd)
  have hf : ∀ q, ((s.ft.net.setScb a.scb { s.ft.net.scbs a.scb with acptScb := 0 }).scbs q).f =
      (s.ft.net.scbs q).f := by
    intro q
    by_cases hq : q = a.scb
    · simp [hq]
    · simp [hq]
  have hself : ((s.ft.net.setScb a.scb { s.ft.net.scbs a.scb with acptScb := 0 }).scbs a.scb).acptScb = 0 := by
    simp
  have hother : ∀ q, q ≠ a.scb → ((s.ft.net.setScb a.scb { s.ft.net.scbs a.scb with acptScb := 0 }).scbs q).acptScb =
        (s.ft.net.scbs q).acptScb :=
    fun q hq => by simp [hq]
  have hal : (s.ft.net.setScb a.scb { s.ft.net.scbs a.scb with acptScb := 0 }).alive = s.ft.net.alive := rfl
  have hbrk : (s.ft.net.setScb a.scb { s.ft.net.scbs a.scb with acptScb := 0 }).brkScb = s.ft.net.brkScb := rfl
  generalize s.ft.net.setScb a.scb { s.ft.net.scbs a.scb with acptScb := 0 } = n at hi hf hself hother hal hbrk
  have hkeep : ∀ q, (n.scbs q).acptScb ≠ 0 → q ≠ a.scb ∧ (n.scbs q).acptScb = (s.ft.net.scbs q).acptScb := by
    intro q hq
    have hne : q ≠ a.scb := by
      rintro rfl
      exact hq hself
    exact ⟨hne, hother q hne⟩
  have hpend : ∀ g, Pending n g ↔ Pending s.ft.net g ∧ g ≠ s.ofile (pr, a.newFd) := by
    intro g
    constructor
    · rintro ⟨q, hq, hqf, hqa, hg⟩
      rw [hal] at hq
      rw [hf] at hqf hg
      obtain ⟨hne, heq⟩ := hkeep q hqa
      rw [heq] at hqa hg
      obtain ⟨h8, h9⟩ := h.ft.acpt q hq hqf hqa
      refine ⟨⟨q, hq, hqf, hqa, hg⟩, fun hgs => hne ?_⟩
      -- two blocks with one file are one
      have h10 := (h.ft.file _ h8 h9).2.2
      have h11 := (h.ft.file _ h6 h7).2.2
      rw [hg, hgs, h5] at h10
      exact h.ft.one q a.scb hq hqf h1 h2 hqa (by rw [h3, ← h10, h11])
    · rintro ⟨⟨q, hq, hqf, hqa, hg⟩, hgs⟩
      have hne : q ≠ a.scb := by
        rintro rfl
        rw [h3, ← h5] at hg
        exact hgs hg.symm
      refine ⟨q, hal ▸ hq, by rw [hf]; exact hqf, by rw [hother q hne]; exact hqa, ?_⟩
      rw [hother q hne, hf]
      exact hg
  have hslot : ∀ x, s.ofile x = s.ofile (pr, a.newFd) → x = (pr, a.newFd) :=
    fun x hx => holders_unique (h.pending _ hpa).2 hx rfl
  refine ⟨h.ft.endAccept hf (fun q hq => (hkeep q hq).2) hal hbrk hi, h.slot, fun g hg hp => ?_, fun g hp => ?_,
    fun z hz hp => ?_, fun q b hb => ?_, fun q hq => ?_⟩
  · by_cases hgs : g = s.ofile (pr, a.newFd)
    · subst hgs
      obtain ⟨hr, hle⟩ := h.pending _ hpa
      have hpos := holders_pos (g := s.ofile) (a := (pr, a.newFd)) rfl
      dsimp only
      omega
    · exact h.counted g hg fun hp' => hp ((hpend g).mpr ⟨hp', hgs⟩)
  · exact h.pending g ((hpend g).mp hp).1
  · obtain ⟨hp, hgs⟩ := (hpend _).mp hp
    exact h.waits_other ha hz hp fun he => hgs (congrArg _ he)
  · dsimp only at hb ⊢
    have hq : q ≠ pr := by
      rintro rfl
      rw [update_self] at hb
      cases hb
    rw [update_of_ne hq] at hb
    obtain ⟨b1, b2, b3, b4, b5⟩ := h.accepting q b hb
    have hne : b.scb ≠ a.scb := by
      intro heq
      rw [heq, h3] at b3
      rw [← b3, ← h5] at b5
      exact hq (Prod.mk.inj (hslot _ b5)).1
    rw [hal, hf, hf, hother _ hne]
    exact ⟨b1, b2, b3, b4, b5⟩
  · obtain ⟨d1, d2⟩ := h.dead q hq
    refine ⟨?_, d2⟩
    dsimp only
    by_cases hqp : q = pr
    · rw [hqp, update_self]
    · rw [update_of_ne hqp]
      exact d1

/-- A failed `accept` takes its slot back; the block waits for the next one. -/
theorem acceptBad (hg : FileStep s (.acceptBad pr)) (hs : acceptBad s pr = some s') : s'.Inv L := by
  obtain ⟨a, ha, rfl⟩ := map_eq_some_iff.mp hs
  rw [if_pos (hg a ha)]
  have hpa := h.accepting_slot ha
  refine ⟨h.ft, slots_update (fun _ v => s.ft.alive v = true) (absurd rfl) fun z _ => h.slot z, fun g hg hp => ?_,
    fun g hp => ?_, slots_update (WaitsIn s.ft.net (update s.accepting pr none)) (absurd rfl)
      fun z hne hz hp => h.waits_other ha hz hp hne, fun q b hb => ?_,
    fun q hq => ⟨?_, h.dead_update (absurd rfl) hq⟩⟩
  · have hgf : s.ofile (pr, a.newFd) ≠ g := by
      rintro rfl
      exact hp hpa
    dsimp only [setSlot]
    rw [holders_update_of_ne hgf (Ne.symm (h.ne_zero hg))]
    exact h.counted g hg hp
  · obtain ⟨hr, hle⟩ := h.pending g hp
    refine ⟨hr, ?_⟩
    dsimp only [setSlot]
    by_cases hgf : s.ofile (pr, a.newFd) = g
    · have := holders_update_clear hgf (Ne.symm (h.pending_ne_zero hp))
      omega
    · rw [holders_update_of_ne hgf (Ne.symm (h.pending_ne_zero hp))]
      exact hle
  · dsimp only [setSlot] at hb ⊢
    have hq : q ≠ pr := by
      rintro rfl
      rw [update_self] at hb
      cases hb
    rw [update_of_ne hq] at hb
    rw [update_of_ne fun e => hq (Prod.mk.inj e).1]
    exact h.accepting q b hb
  · by_cases hqp : q = pr
    · rw [hqp]
      exact update_self ..
    · exact (update_of_ne hqp _ _).trans (h.dead q hq).1

end

theorem ready_of_some {o : Option Tasks} (hs : (if s.ready pr then o else none) = some s') :
    s.live pr = true ∧ s.accepting pr = none ∧ o = some s' := by
  split at hs
  · next hr =>
    have : s.live pr = true ∧ s.accepting pr = none := by simpa [ready] using hr
    exact ⟨this.1, this.2, hs⟩
  · cases hs

theorem dup (h : s.Inv L) (hl : s.live pr = true) (hw : s.accepting pr = none)
    (hs : sysDup s pr fd = some s') : s'.Inv L := by
  unfold sysDup at hs
  dsimp only at hs
  split at hs
  · cases hs
    exact h
  next hx =>
  cases hfd : s.fdalloc pr with
  | some fd' =>
    have hal := h.slot (pr, fd) hx
    rw [hfd] at hs
    rw [filedup_eq hal (h.counted _ hal (h.not_pending hx hw)).2] at hs
    cases hs
    exact h.copySlot (x := (pr, fd)) (y := (pr, fd')) hx hw (fdalloc_empty hfd) hl
  | none =>
    rw [hfd] at hs
    cases hs
    exact h

theorem close (h : s.Inv L) (hw : s.accepting pr = none) (hg : FileStep s (.close pr fd))
    (hs : sysClose s pr fd = some s') : ∃ L', s'.Inv L' := by
  unfold sysClose at hs
  dsimp only at hs
  split at hs
  · cases hs
    exact ⟨L, h⟩
  next hx =>
  obtain ⟨t, ht, rfl⟩ := map_eq_some_iff.mp hs
  obtain ⟨L', h', -⟩ := h.closeSlot (x := (pr, fd)) hx hw hg ht
  exact ⟨L', h'⟩

theorem sock (h : s.Inv L) {c : SockCall} (hg : FileStep s (.sock pr fd c))
    (hs : sysSock s pr fd c = some s') : ∃ L', s'.Inv L' := by
  obtain ⟨p, hp, hs⟩ := bind_eq_some_iff.mp hs
  split at hs
  · cases hs
    exact ⟨L, h⟩
  next h0 =>
  obtain ⟨n, hn, rfl⟩ := map_eq_some_iff.mp hs
  obtain ⟨L', hi⟩ := h.ft.tables.step ⟨hg p hp h0, hn⟩
  have hsame := SockCall.sameFiles hn
  exact ⟨L', h.keeps (Keeps.of_net hsame) (h.ft.same hsame hi)⟩

theorem step (h : s.Inv L) {ev : Ev} (hg : FileStep s ev) (hs : s.step ev = some s') : ∃ L', s'.Inv L' := by
  cases ev with
  | socket pr t =>
    obtain ⟨hl, -, hs⟩ := ready_of_some hs
    exact ⟨L, h.socket hl hg.1 hg.2 hs⟩
  | openFile pr type =>
    obtain ⟨hl, -, hs⟩ := ready_of_some hs
    split at hs
    · next ht =>
      refine ⟨L, h.openFile hl ?_ hs⟩
      rintro rfl
      exact absurd ht (by decide)
    · cases hs
  | dup pr fd =>
    obtain ⟨hl, hw, hs⟩ := ready_of_some hs
    exact ⟨L, h.dup hl hw hs⟩
  | close pr fd =>
    obtain ⟨-, hw, hs⟩ := ready_of_some hs
    exact h.close hw hg hs
  | fork pr np =>
    obtain ⟨-, hw, hs⟩ := ready_of_some hs
    exact ⟨L, h.fork hw hs⟩
  | exit pr =>
    obtain ⟨-, hw, hs⟩ := ready_of_some hs
    exact h.exit hw hg hs
  | accept pr fd =>
    obtain ⟨hl, hw, hs⟩ := ready_of_some hs
    exact h.accept hl hw hg hs
  | acceptDone pr => exact ⟨L, h.acceptDone hs⟩
  | acceptBad pr => exact ⟨L, h.acceptBad hg hs⟩
  | sock pr fd c =>
    obtain ⟨-, -, hs⟩ := ready_of_some hs
    exact h.sock hg hs
  | tcpRecv m len raddr =>
    obtain ⟨t, ht, rfl⟩ := map_eq_some_iff.mp hs
    obtain ⟨hkeep, L', hi⟩ := h.ft.tcpRecv hg ht
    exact ⟨L', h.keeps hkeep hi⟩
  | udpRecv m len raddr hdr =>
    obtain ⟨n, hn, rfl⟩ := map_eq_some_iff.mp hs
    have hsame := udpRecv_sameFiles hn
    exact ⟨L, h.keeps (Keeps.of_net hsame) (h.ft.same hsame (udpRecv_inv h.ft.tables hn))⟩

end

end Tasks.Inv

theorem Tasks.init_inv : init.Inv fun _ _ => [] where
  ft :=
    { tables := socketInit_inv
      list := rfl
      links := fun _ h => (by cases h)
      fresh := fun _ h => (by cases h)
      brk_pos := Nat.one_pos
      scb := fun _ h => (by cases h)
      file := fun _ h => (by cases h)
      acpt := fun _ h => (by cases h)
      one := fun _ _ h => (by cases h)
      nodup := nodup_nil
      freedFile := fun f => ⟨fun h => (by cases h), fun h => absurd h.2.1 (not_lt.mpr h.1)⟩
      freedScb := fun f => ⟨fun h => (by cases h), fun h => absurd h.2.1 (not_lt.mpr h.1)⟩ }
  slot _ h := absurd rfl h
  counted _ h := (by cases h)
  pending _ h := (by obtain ⟨_, h, -⟩ := h; cases h)
  waits _ h := absurd rfl h
  accepting _ _ h := (by cases h)
  dead _ _ := ⟨rfl, fun _ => rfl⟩

/-- **The lifetime of files and sockets.**  In every run whose steps meet `FileStep`: a file in a slot is allocated,
its count is the number of slots that hold it, and if it is a socket its block is allocated and points back.  A
file or block is freed once, and then it is no longer allocated; a file is allocated only while some slot holds it
or it waits for `accept`; and the socket tables hold allocated blocks only. -/
theorem socketLifetime {evs : List Ev} {s : Tasks}
    (hrun : Run (guard FileStep fun s ev s' => step s ev = some s') init evs s) :
    (∀ x, s.ofile x ≠ 0 → s.ft.alive (s.ofile x) = true ∧ (s.ft.files (s.ofile x)).ref = holders s.ofile (s.ofile x) ∧
      ((s.ft.files (s.ofile x)).type = .sock → s.ft.net.alive (s.ft.files (s.ofile x)).scb = true ∧
        (s.ft.net.scbs (s.ft.files (s.ofile x)).scb).f = s.ofile x)) ∧
    (s.ft.frees.Nodup ∧ (∀ f, 0 < f → f < s.ft.brk → (Obj.file f ∈ s.ft.frees ↔ s.ft.alive f = false)) ∧
      ∀ p, 0 < p → p < s.ft.net.brkScb → (Obj.scb p ∈ s.ft.frees ↔ s.ft.net.alive p = false)) ∧
    (∀ f, s.ft.alive f = true → (∃ x, s.ofile x = f) ∨ Pending s.ft.net f) ∧
    ∀ p, s.ft.net.Linked p → s.ft.net.alive p = true := by
  obtain ⟨L, h⟩ : ∃ L, s.Inv L := by
    refine hrun.inv (I := fun s => ∃ L, s.Inv L) ?_ ⟨_, init_inv⟩
    rintro s ev s' ⟨L, h⟩ ⟨hg, hs⟩
    exact h.step hg hs
  refine ⟨fun x hx => ⟨h.slot x hx, ?_, h.ft.scb _ (h.slot x hx)⟩, ⟨h.ft.nodup, fun f h0 hb => ?_, fun p h0 hb => ?_⟩,
    fun f hf => ?_, fun p hp => ?_⟩
  · by_cases hp : Pending s.ft.net (s.ofile x)
    · have hpos := holders_pos (g := s.ofile) (a := x) rfl
      have := h.pending _ hp
      omega
    · exact (h.counted _ (h.slot x hx) hp).1
  · rw [h.ft.freedFile]
    simp [h0, hb]
  · rw [h.ft.freedScb]
    simp [h0, hb]
  · by_cases hp : Pending s.ft.net f
    · exact .inr hp
    · obtain ⟨heq, hpos⟩ := h.counted f hf hp
      rw [heq] at hpos
      exact .inl (exists_of_holders_pos hpos)
  · obtain ⟨tb, i, hm⟩ := h.ft.tables.linked_iff.mp hp
    exact (h.ft.tables.mem tb i p hm).1

/-- A socket with two descriptors, of which one is closed. -/
theorem socketLifetime_dup : ∃ s, Run (guard FileStep fun s ev s' => step s ev = some s') init
      [.socket 0 .tcp, .dup 0 0, .close 0 0] s ∧
    s.ofile (0, 1) = 1 ∧ (s.ft.files 1).type = .sock ∧ s.ft.alive 1 = true ∧ (s.ft.files 1).ref = holders s.ofile 1 ∧
    (s.ft.net.scbs (s.ft.files 1).scb).f = 1 := by
  obtain ⟨s1, h1, s2, h2, s3, h3, href, hslot, htype⟩ : ∃ s1, init.step (.socket 0 .tcp) = some s1 ∧
      ∃ s2, s1.step (.dup 0 0) = some s2 ∧ ∃ s3, s2.step (.close 0 0) = some s3 ∧
        (s2.ft.files (s2.ofile (0, 0))).ref = 2 ∧ s3.ofile (0, 1) = 1 ∧ (s3.ft.files 1).type = .sock := by
    decide +kernel
  have hrun : Run (guard FileStep fun s ev s' => step s ev = some s') init
      [.socket 0 .tcp, .dup 0 0, .close 0 0] s3 := by
    refine .cons ⟨⟨by decide, 0, rfl⟩, h1⟩ (.cons ⟨trivial, h2⟩ (.cons ⟨fun _ hr => ?_, h3⟩ (.nil s3)))
    rw [href] at hr
    cases hr
  obtain ⟨hal, hcount, hscb⟩ := (socketLifetime hrun).1 (0, 1) (by rw [hslot]; decide)
  rw [hslot] at hal hcount hscb
  exact ⟨s3, hrun, hslot, htype, hal, hcount, (hscb htype).2⟩

/-- A connection is accepted and its peer resets it: the file is freed and a descriptor still holds it.  And two
processes that share a listening socket wait for the same connection: two descriptors hold a file with one
reference. -/
theorem socketLifetime_reset : (∃ s, Run (fun s ev s' => step s ev = some s') init
        [.socket 0 .tcp, .sock 0 0 (.listen 80), .accept 0 0, .tcpRecv (ctlMbuf 5 80 7 0 tcpFlgSyn) 20 9,
          .tcpRecv (ctlMbuf 5 80 8 1 tcpFlgAck) 20 9, .acceptDone 0, .tcpRecv (ctlMbuf 5 80 8 0 tcpFlgRst) 20 9] s ∧
      s.ofile (0, 1) = 2 ∧ s.ft.alive 2 = false) ∧
    ∃ s, Run (fun s ev s' => step s ev = some s') init
        [.socket 0 .tcp, .sock 0 0 (.listen 80), .fork 0 1, .accept 0 0, .accept 1 0] s ∧
      s.ofile (0, 1) = 2 ∧ s.ofile (1, 1) = 2 ∧ s.ft.alive 2 = true ∧ (s.ft.files 2).ref = 1 ∧
      1 < holders s.ofile 2 := by
  constructor
  · exact Run.find (by decide +kernel) fun s _ hv => hv
  · refine Run.find (P := fun s => s.ofile (0, 1) = 2 ∧ s.ofile (1, 1) = 2 ∧ s.ft.alive 2 = true ∧
      (s.ft.files 2).ref = 1) (by decide +kernel) ?_
    rintro s - ⟨h1, h2, h3, h4⟩
    refine ⟨h1, h2, h3, h4, ?_⟩
    by_contra hle
    exact absurd (holders_unique (Nat.not_lt.mp hle) h1 h2) (by decide)

end InternetOs.Sys
