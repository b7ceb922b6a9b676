import InternetOs.Fs.Threads

/-!
# Reference counts of the buffer cache

`Counted s cnt`: the reference counts are `cnt`, and a buffer with references is the one that
`bget` finds for its block.  Every call into the cache keeps this with the counts changed by one.
At the level of the system the counts are those of the holders and of the pins.

`install_trans` unpins each block it installs.  After a commit these are the blocks that
`log_write` has pinned; in recovery nobody has pinned them (bufferCache_recovery).  When there is
nothing to recover:

    refcnt = holders + pins, in every state of a run                       (bufferCache)
-/

namespace InternetOs.Fs

open Function List Option EStateM Kern Result

/-! ## The cache alone -/

/-- The buffer that `bget` finds for a block. -/
def Kern.find (s : Kern) (dev b : UInt32) : Option Nat :=
  s.order.find? fun i => (s.bufs i).dev == dev && (s.bufs i).blockno == b

/-- Both have the buffer for the same block. -/
def Kern.SameName (s s' : Kern) (i : Nat) : Prop :=
  (s'.bufs i).dev = (s.bufs i).dev ∧ (s'.bufs i).blockno = (s.bufs i).blockno

structure Counted (s : Kern) (cnt : Nat → Nat) : Prop where
  refs : ∀ i, s.refs i = cnt i
  found : ∀ i, 0 < cnt i → s.find (s.bufs i).dev (s.bufs i).blockno = some i

section
variable {s s' : Kern} {cnt cnt' : Nat → Nat} {i j : Nat} {dev b : UInt32}

theorem Kern.find_mem (h : s.find dev b = some i) : i ∈ s.order := mem_of_find?_eq_some h

theorem Kern.find_name (h : s.find dev b = some i) : (s.bufs i).dev = dev ∧ (s.bufs i).blockno = b := by
  have hp := find?_some h
  simpa using hp

theorem find?_of_imp {p q : Nat → Bool} {l : List Nat} (h : l.find? p = some i) (hq : q i = true)
    (himp : ∀ x ∈ l, q x = true → p x = true) : l.find? q = some i := by
  induction l with
  | nil => cases h
  | cons x l ih =>
    rw [find?_cons] at h ⊢
    cases hpx : p x with
    | true =>
      rw [hpx] at h
      obtain rfl : x = i := some.inj h
      rw [hq]
    | false =>
      rw [hpx] at h
      have hqx : q x = false := by
        by_contra hne
        rw [himp x mem_cons_self (Bool.eq_true_of_not_eq_false hne)] at hpx
        cases hpx
      rw [hqx]
      exact ih h fun y hy => himp y (mem_cons_of_mem x hy)

theorem find?_erase {p : Nat → Bool} (hp : p i = false) (l : List Nat) : (l.erase i).find? p = l.find? p := by
  induction l with
  | nil => rfl
  | cons x l ih =>
    rw [erase_cons]
    split_ifs with hx
    · obtain rfl : x = i := by simpa using hx
      rw [find?_cons, hp]
    · rw [find?_cons, find?_cons, ih]

theorem Counted.unique (h : Counted s cnt) (hi : 0 < cnt i) (hj : 0 < cnt j)
    (hd : (s.bufs i).dev = (s.bufs j).dev) (hb : (s.bufs i).blockno = (s.bufs j).blockno) : i = j := by
  have h1 := h.found i hi
  rw [hd, hb, h.found j hj] at h1
  exact (some.inj h1).symm

/-- The buffers stay in place, and those with references were found. -/
theorem Counted.frame (s : Kern) (horder : s'.order = s.order) (hname : ∀ j, s.SameName s' j)
    (hrefs : ∀ j, s'.refs j = cnt' j)
    (hfound : ∀ j, 0 < cnt' j → s.find (s.bufs j).dev (s.bufs j).blockno = some j) : Counted s' cnt' := by
  refine ⟨hrefs, fun j hj => ?_⟩
  have hf := hfound j hj
  unfold find at hf ⊢
  rw [horder]
  simp only [(hname _).1, (hname _).2]
  exact hf

theorem Kern.sameName_setBuf {x : Buf} (hd : x.dev = (s.bufs i).dev) (hb : x.blockno = (s.bufs i).blockno)
    (j : Nat) : s.SameName (s.setBuf i x) j := by
  by_cases hji : j = i
  · subst hji
    unfold SameName
    rw [Kern.setBuf_self]
    exact ⟨hd, hb⟩
  · unfold SameName
    rw [s.setBuf_ne x hji]
    exact ⟨rfl, rfl⟩

theorem Kern.sameName_addRef (s : Kern) (i : Nat) (x : Int) : ∀ j, s.SameName (s.addRef i x) j :=
  sameName_setBuf rfl rfl

theorem Kern.sameName_fill (s : Kern) (i j : Nat) : s.SameName (s.fill i) j := by
  unfold fill
  split
  · exact ⟨rfl, rfl⟩
  · exact sameName_setBuf (by rfl) (by rfl) j

theorem Kern.refs_fill (s : Kern) (i j : Nat) : (s.fill i).refs j = s.refs j := by
  unfold fill
  split
  · rfl
  · unfold Kern.refs
    by_cases hji : j = i
    · subst hji
      rw [Kern.setBuf_self]
    · rw [s.setBuf_ne _ hji]

theorem Kern.order_fill (s : Kern) (i : Nat) : (s.fill i).order = s.order := by
  unfold fill
  split <;> rfl

theorem Counted.addRef (h : Counted s cnt) {x : Int} {c : Nat}
    (hf : s.find (s.bufs i).dev (s.bufs i).blockno = some i) (hc : (cnt i : Int) + x = c) :
    Counted (s.addRef i x) (update cnt i c) := by
  refine .frame s rfl (s.sameName_addRef i x) (fun j => ?_) (fun j hj => ?_)
  · rw [refs_addRef]
    by_cases hji : j = i
    · subst hji
      rw [update_self, update_self, h.refs, hc]
    · rw [update_of_ne hji, update_of_ne hji]
      exact h.refs j
  · by_cases hji : j = i
    · exact hji ▸ hf
    · rw [update_of_ne hji] at hj
      exact h.found j hj

theorem Kern.find_recycled {x : Buf} (hi : i ∈ s.order)
    (hno : ∀ j ∈ s.order, ¬ ((s.bufs j).dev = x.dev ∧ (s.bufs j).blockno = x.blockno)) :
    (s.setBuf i x).find x.dev x.blockno = some i := by
  cases hf : (s.setBuf i x).find x.dev x.blockno with
  | none => exact absurd (find?_eq_none.mp hf i hi) (by simp)
  | some j =>
    by_contra hne
    have hji : j ≠ i := fun heq => hne (by rw [heq])
    have hname := find_name hf
    rw [s.setBuf_ne _ hji] at hname
    exact hno j (find_mem (s := s.setBuf i x) hf) hname

theorem Counted.bget (h : Counted s cnt) (hr : bget dev b s = .ok i s') :
    Counted s' (update cnt i (cnt i + 1)) ∧ ((s'.bufs i).dev = dev ∧ (s'.bufs i).blockno = b) ∧
      (∀ j, 0 < cnt j → s.SameName s' j) ∧ s'.order = s.order := by
  unfold Fs.bget at hr
  split at hr
  · rename_i k hfind
    obtain ⟨rfl, rfl⟩ := ok.inj hr
    obtain ⟨hd, hb⟩ := find_name (s := s) hfind
    refine ⟨h.addRef (by rw [hd, hb]; exact hfind) rfl, ?_, fun j _ => s.sameName_addRef k 1 j, rfl⟩
    rw [Kern.setBuf_self]
    exact ⟨hd, hb⟩
  · rename_i hnone
    split at hr
    · rename_i k hfree
      obtain ⟨rfl, rfl⟩ := ok.inj hr
      have hk0 : cnt k = 0 := by
        have hp := find?_some hfree
        simp only [beq_iff_eq] at hp
        have := h.refs k
        unfold Kern.refs at this
        omega
      have hmem : k ∈ s.order := mem_reverse.mp (mem_of_find?_eq_some hfree)
      have hno : ∀ x ∈ s.order, ¬ ((s.bufs x).dev = dev ∧ (s.bufs x).blockno = b) := by
        intro x hx hnm
        have := find?_eq_none.mp hnone x hx
        simp [hnm.1, hnm.2] at this
      refine ⟨⟨fun j => ?_, fun j hj => ?_⟩, by rw [Kern.setBuf_self]; exact ⟨rfl, rfl⟩, fun j hj => ?_, rfl⟩
      · by_cases hjk : j = k
        · subst hjk
          rw [update_self, Kern.refs, Kern.setBuf_self, hk0]
          rfl
        · rw [update_of_ne hjk, Kern.refs, s.setBuf_ne _ hjk]
          exact h.refs j
      · by_cases hjk : j = k
        · subst hjk
          rw [Kern.setBuf_self]
          exact find_recycled hmem hno
        · rw [update_of_ne hjk] at hj
          have hf := h.found j hj
          have hjn := hno j (find_mem hf)
          rw [s.setBuf_ne _ hjk]
          refine find?_of_imp hf ?_ fun x hx hq => ?_
          · rw [s.setBuf_ne _ hjk]
            simp
          · by_cases hxk : x = k
            · subst hxk
              rw [Kern.setBuf_self] at hq
              simp only [Bool.and_eq_true, beq_iff_eq] at hq
              exact absurd ⟨hq.1.symm, hq.2.symm⟩ hjn
            · rw [s.setBuf_ne _ hxk] at hq
              exact hq
      · have hjk : j ≠ k := by
          rintro rfl
          omega
        unfold SameName
        rw [s.setBuf_ne _ hjk]
        exact ⟨rfl, rfl⟩
    · cases hr

theorem Counted.bread (h : Counted s cnt) (hr : bread dev b s = .ok i s') :
    Counted s' (update cnt i (cnt i + 1)) ∧ ((s'.bufs i).dev = dev ∧ (s'.bufs i).blockno = b) ∧
      ∀ j, 0 < cnt j → s.SameName s' j := by
  obtain ⟨k, s1, h1, hr⟩ := bind_ok hr
  obtain ⟨_, s2, h2, hr⟩ := bind_ok hr
  cases h2
  obtain ⟨rfl, rfl⟩ := ok.inj hr
  obtain ⟨hc, hnm, hsame, -⟩ := h.bget h1
  have hfill := s1.sameName_fill k
  refine ⟨.frame s1 (s1.order_fill k) hfill (fun j => by rw [s1.refs_fill, hc.refs]) hc.found, ?_, fun j hj => ?_⟩
  · exact ⟨(hfill k).1.trans hnm.1, (hfill k).2.trans hnm.2⟩
  · exact ⟨(hfill j).1.trans (hsame j hj).1, (hfill j).2.trans (hsame j hj).2⟩

theorem Counted.brelse (h : Counted s cnt) (hpos : 0 < cnt i) :
    Counted ((s.addRef i (-1)).toFront i) (update cnt i (cnt i - 1)) := by
  have h1 := h.addRef (x := -1) (c := cnt i - 1) (h.found i hpos) (by omega)
  unfold toFront
  split_ifs with hz
  · -- only a buffer without references moves
    have hzero : update cnt i (cnt i - 1) i = 0 := by
      have := h1.refs i
      unfold Kern.refs at this
      omega
    refine ⟨h1.refs, fun j hj => ?_⟩
    have hji : j ≠ i := by
      rintro rfl
      omega
    have hne : ¬ (((s.addRef i (-1)).bufs i).dev = ((s.addRef i (-1)).bufs j).dev ∧
        ((s.addRef i (-1)).bufs i).blockno = ((s.addRef i (-1)).bufs j).blockno) := by
      rintro ⟨hd, hb⟩
      have hn := s.sameName_addRef i (-1)
      rw [update_of_ne hji] at hj
      refine hji (h.unique hj hpos ?_ ?_)
      · exact ((hn j).1.symm.trans (hd.symm.trans (hn i).1))
      · exact ((hn j).2.symm.trans (hb.symm.trans (hn i).2))
    have hf := h1.found j hj
    unfold find at hf ⊢
    rw [find?_cons]
    have hpi : (((s.addRef i (-1)).bufs i).dev == ((s.addRef i (-1)).bufs j).dev &&
        ((s.addRef i (-1)).bufs i).blockno == ((s.addRef i (-1)).bufs j).blockno) = false := by
      rw [Bool.eq_false_iff]
      intro hp
      exact hne (by simpa using hp)
    rw [hpi]
    exact (find?_erase hpi _).trans hf
  · exact h1

theorem Kern.sameName_brelse (s : Kern) (i j : Nat) : s.SameName ((s.addRef i (-1)).toFront i) j := by
  unfold toFront
  split_ifs <;> exact s.sameName_addRef i (-1) j

end

/-! ## The discipline of the committing thread -/

/-- The program releases what it reads, installs the entries in order and unpins each after it has
been installed.  `n` entries are in the header, `mine` are the buffers it holds, `inst` entries are
installed and `t` unpinned. -/
def Prog.Good (home : Nat → UInt32) : Prog → Nat → List (Nat × UInt32) → Nat → Nat → Prop
  | .done, n, mine, inst, t => n = 0 ∧ mine = [] ∧ inst = 0 ∧ t = 0
  | .bread b k, n, mine, inst, t => ∀ i, (k i).Good home n ((i, b) :: mine) inst t
  | .memmove _ _ k, n, mine, inst, t => k.Good home n mine inst t
  | .head _ k, n, mine, inst, t => k.Good home n mine inst t
  | .bwrite _ k, n, mine, inst, t => k.Good home n mine inst t
  | .install i k, n, mine, inst, t => (i, home inst) ∈ mine ∧ k.Good home n mine (inst + 1) t
  | .bunpin i k, n, mine, inst, t =>
    t < inst ∧ t < n ∧ (i, home t) ∈ mine ∧ k.Good home n mine inst (t + 1)
  | .brelse i k, n, mine, inst, t =>
    (∃ b, (i, b) ∈ mine) ∧ k.Good home n (mine.eraseP fun p => p.1 == i) inst t
  | .clear k, n, mine, _, t => t = n ∧ k.Good home 0 mine 0 0

section
variable {log : Log} {home : Nat → UInt32} {k : Prog} {n tail inst t : Nat} {mine : List (Nat × UInt32)}

theorem Prog.good_brelse {i : Nat} {b : UInt32} (hk : k.Good home n mine inst t) :
    (Prog.brelse i k).Good home n ((i, b) :: mine) inst t := by
  refine ⟨⟨b, mem_cons_self⟩, ?_⟩
  rw [eraseP_cons_of_pos (by simp)]
  exact hk

theorem Prog.good_writeLogBody (hk : k.Good home n mine inst t) :
    (Prog.writeLogBody log tail k).Good home n mine inst t := by
  intro dst src
  exact good_brelse (good_brelse hk)

theorem Prog.good_installBody (ht : tail < n) (hk : k.Good log.lh.block n mine (tail + 1) (tail + 1)) :
    (Prog.installBody log tail k).Good log.lh.block n mine tail tail := by
  intro lbuf dbuf
  refine ⟨mem_cons_self, Nat.lt_succ_self tail, ht, mem_cons_self, ⟨_, mem_cons_of_mem _ mem_cons_self⟩, ?_⟩
  by_cases hld : dbuf = lbuf
  · subst hld
    rw [eraseP_cons_of_pos (by simp)]
    exact good_brelse hk
  · rw [eraseP_cons_of_neg (by simpa using hld), eraseP_cons_of_pos (by simp)]
    exact good_brelse hk

theorem Prog.good_writeHead (hk : k.Good home n mine inst t) : (Prog.writeHead log k).Good home n mine inst t := by
  intro buf
  exact good_brelse hk

theorem commitProg_good (log : Log) : (commitProg log).Good log.lh.block log.lh.n.toNat [] 0 0 := by
  have hlog : ∀ cnt tail k, k.Good log.lh.block log.lh.n.toNat [] 0 0 →
      (Prog.loop (Prog.writeLogBody log) k tail cnt).Good log.lh.block log.lh.n.toNat [] 0 0 := by
    intro cnt
    induction cnt with
    | zero => exact fun _ _ hk => hk
    | succ cnt ih => exact fun tail k hk => Prog.good_writeLogBody (ih (tail + 1) k hk)
  have hinstall : ∀ cnt tail k, tail + cnt = log.lh.n.toNat →
      k.Good log.lh.block log.lh.n.toNat [] log.lh.n.toNat log.lh.n.toNat →
      (Prog.loop (Prog.installBody log) k tail cnt).Good log.lh.block log.lh.n.toNat [] tail tail := by
    intro cnt
    induction cnt with
    | zero =>
      intro tail k htail hk
      obtain rfl : tail = log.lh.n.toNat := by omega
      exact hk
    | succ cnt ih =>
      intro tail k htail hk
      exact Prog.good_installBody (by omega) (ih (tail + 1) k (by omega) hk)
  refine hlog _ 0 _ (Prog.good_writeHead (hinstall _ 0 _ (zero_add _) ⟨rfl, ?_⟩))
  exact Prog.good_writeHead ⟨rfl, rfl, rfl, rfl⟩

end

/-! ## The system -/

/-- Holders and pins of a buffer. -/
def Sys.refs (s : Sys) (i : Nat) : Nat := s.held.count i + (s.mine.map Prod.fst).count i + s.pins.count i

/-- The first `t` entries of the header are unpinned, the others in the order of `pins`. -/
structure Accounted (s : Sys) (t : Nat) : Prop where
  counted : Counted s.kern s.refs
  mine : ∀ p ∈ s.mine, (s.kern.bufs p.1).dev = s.kern.log.dev ∧ (s.kern.bufs p.1).blockno = p.2
  pending : ∀ op ∈ s.ops, ∀ i, op.pending = some i → i ∈ s.held ∧ (s.kern.bufs i).dev = s.kern.log.dev
  count : s.kern.log.outstanding = s.ops.length
  nonneg : 0 ≤ s.kern.log.lh.n
  pins : s.pins.length + t = s.kern.log.lh.n.toNat
  names : ∀ j i, s.pins[j]? = some i →
    (s.kern.bufs i).dev = s.kern.log.dev ∧ (s.kern.bufs i).blockno = s.kern.log.lh.block (t + j)
  behind : t ≤ s.installed
  quiet : s.kern.log.committing = false → s.committer = .done ∧ s.mine = [] ∧ t = 0 ∧ s.installed = 0
  busy : s.kern.log.committing = true →
    s.ops = [] ∧ s.committer.Good s.kern.log.lh.block s.kern.log.lh.n.toNat s.mine s.installed t

namespace Accounted

variable {s s' : Sys} {t : Nat}

theorem held_pos {i : Nat} (hi : i ∈ s.held) : 0 < s.refs i := by
  have := count_pos_iff.mpr hi
  unfold Sys.refs
  omega

theorem mine_pos {p : Nat × UInt32} (hp : p ∈ s.mine) : 0 < s.refs p.1 := by
  have := count_pos_iff.mpr (mem_map_of_mem (f := Prod.fst) hp)
  unfold Sys.refs
  omega

theorem pins_pos {i : Nat} (hi : i ∈ s.pins) : 0 < s.refs i := by
  have := count_pos_iff.mpr hi
  unfold Sys.refs
  omega

theorem map_eraseP (l : List (Nat × UInt32)) (i : Nat) :
    (l.eraseP fun p => p.1 == i).map Prod.fst = (l.map Prod.fst).erase i := by
  induction l with
  | nil => rfl
  | cons p l ih =>
    by_cases hp : p.1 = i
    · rw [eraseP_cons_of_pos (by simpa using hp), map_cons, hp, erase_cons_head]
    · rw [eraseP_cons_of_neg (by simpa using hp), map_cons, map_cons, erase_cons_tail (by simpa using hp), ih]

/-- The buffers in use keep their blocks and the log stays as it is. -/
theorem of_log (h : Accounted s t) (hcnt : Counted s'.kern s'.refs)
    (hname : ∀ i, 0 < s.refs i → s.kern.SameName s'.kern i) (hlog : s'.kern.log = s.kern.log)
    (hmine : ∀ p ∈ s'.mine, p ∈ s.mine ∨
      (s'.kern.bufs p.1).dev = s.kern.log.dev ∧ (s'.kern.bufs p.1).blockno = p.2)
    (hpend : ∀ op ∈ s'.ops, ∀ i, op.pending = some i → i ∈ s'.held ∧ (s'.kern.bufs i).dev = s.kern.log.dev)
    (hops : s'.ops.length = s.ops.length) (hpins : s'.pins = s.pins) (hinst : s.installed ≤ s'.installed)
    (hquiet : s.kern.log.committing = false →
      s'.committer = s.committer ∧ s'.mine = s.mine ∧ s'.installed = s.installed)
    (hbusy : s.kern.log.committing = true →
      s'.committer.Good s.kern.log.lh.block s.kern.log.lh.n.toNat s'.mine s'.installed t) : Accounted s' t := by
  constructor
  · exact hcnt
  · intro p hp
    rw [hlog]
    rcases hmine p hp with hp | hp
    · have hn := hname p.1 (mine_pos hp)
      rw [hn.1, hn.2]
      exact h.mine p hp
    · exact hp
  · rw [hlog]
    exact hpend
  · rw [hlog, hops]
    exact h.count
  · rw [hlog]
    exact h.nonneg
  · rw [hlog, hpins]
    exact h.pins
  · intro j i hj
    rw [hpins] at hj
    have hn := hname i (pins_pos (mem_of_getElem? hj))
    rw [hn.1, hn.2, hlog]
    exact h.names j i hj
  · exact h.behind.trans hinst
  · intro hq
    rw [hlog] at hq
    obtain ⟨hc, hm, hi⟩ := hquiet hq
    rw [hc, hm, hi]
    exact h.quiet hq
  · intro hb
    rw [hlog] at hb ⊢
    refine ⟨length_eq_zero_iff.mp ?_, hbusy hb⟩
    rw [hops, (h.busy hb).1]
    rfl

theorem keep (h : Accounted s t) (hcnt : Counted s'.kern s'.refs)
    (hname : ∀ i, 0 < s.refs i → s.kern.SameName s'.kern i) (hlog : s'.kern.log = s.kern.log)
    (hpend : ∀ op ∈ s'.ops, ∀ i, op.pending = some i → i ∈ s'.held ∧ (s'.kern.bufs i).dev = s.kern.log.dev)
    (hops : s'.ops.length = s.ops.length) (hmine : s'.mine = s.mine) (hpins : s'.pins = s.pins)
    (hinst : s'.installed = s.installed) (hc : s'.committer = s.committer) : Accounted s' t := by
  refine h.of_log hcnt hname hlog (fun p hp => .inl (hmine ▸ hp)) hpend hops hpins hinst.ge
    (fun _ => ⟨hc, hmine, hinst⟩)
    fun hb => ?_
  rw [hc, hmine, hinst]
  exact (h.busy hb).2

theorem keep_ops (h : Accounted s t) (hcnt : Counted s'.kern s'.refs)
    (hname : ∀ i, 0 < s.refs i → s.kern.SameName s'.kern i) (hlog : s'.kern.log = s.kern.log)
    (hops : s'.ops = s.ops) (hheld : ∀ op ∈ s.ops, ∀ i, op.pending = some i → i ∈ s'.held)
    (hmine : s'.mine = s.mine) (hpins : s'.pins = s.pins) (hinst : s'.installed = s.installed)
    (hc : s'.committer = s.committer) : Accounted s' t := by
  refine h.keep hcnt hname hlog ?_ (by rw [hops]) hmine hpins hinst hc
  intro op hop i hi
  rw [hops] at hop
  obtain ⟨hmem, hdev⟩ := h.pending op hop i hi
  refine ⟨hheld op hop i hi, ?_⟩
  rw [(hname i (held_pos hmem)).1]
  exact hdev

theorem refs_cons_held {k : Kern} {i : Nat} :
    Sys.refs { s with kern := k, held := i :: s.held } = update s.refs i (s.refs i + 1) := by
  refine eq_update_iff.mpr ⟨?_, fun j hji => ?_⟩
  · simp only [Sys.refs, count_cons_self]
    omega
  · simp only [Sys.refs, count_cons_of_ne (Ne.symm hji)]

theorem beginOp (h : Accounted s t) (hs : s.step .beginOp = some s') : Accounted s' t := by
  obtain ⟨r, hr, rfl⟩ := map_eq_some_iff.mp hs
  rw [runK_eq_some, beginOp_run] at hr
  split_ifs at hr with hc
  · obtain ⟨h1, h2⟩ := ok.inj hr
    rw [← h1, ← h2]
    exact h
  · obtain ⟨h1, h2⟩ := ok.inj hr
    rw [not_or, Bool.not_eq_true] at hc
    rw [← h1, ← h2]
    refine ⟨⟨h.counted.refs, h.counted.found⟩, h.mine, ?_, ?_, h.nonneg, h.pins, h.names, h.behind, h.quiet, ?_⟩
    · intro op hop i hi
      rcases mem_cons.mp hop with rfl | hop
      · cases hi
      · exact h.pending op hop i hi
    · show s.kern.log.outstanding + 1 = ((s.ops.length + 1 : Nat) : Int)
      rw [h.count]
      rfl
    · intro hb
      exact absurd (hc.1.symm.trans hb) (by decide)

theorem bread (h : Accounted s t) {dev b : UInt32} (hs : s.step (.bread dev b) = some s') : Accounted s' t := by
  obtain ⟨r, hr, rfl⟩ := map_eq_some_iff.mp hs
  rw [runK_eq_some] at hr
  obtain ⟨hc, -, hsame⟩ := h.counted.bread hr
  refine h.keep_ops ?_ hsame (keepsLog_bread _ _ _ _ _ hr) rfl ?_ rfl rfl rfl rfl
  · rw [refs_cons_held]
    exact hc
  · intro op hop i hi
    exact mem_cons_of_mem _ (h.pending op hop i hi).1

theorem store (h : Accounted s t) {i : Nat} {data : Block} (hs : s.step (.store i data) = some s') :
    Accounted s' t := by
  simp only [Sys.step] at hs
  split_ifs at hs
  cases hs
  have hname : ∀ j, s.kern.SameName (s.kern.setData i data) j := sameName_setBuf rfl rfl
  exact h.keep_ops (.frame s.kern rfl hname (fun j => by rw [refs_setData]; exact h.counted.refs j) h.counted.found)
    (fun j _ => hname j) rfl rfl (fun op hop i hi => (h.pending op hop i hi).1) rfl rfl rfl rfl

theorem brelse (h : Accounted s t) {i : Nat} (hs : s.step (.brelse i) = some s') : Accounted s' t := by
  simp only [Sys.step] at hs
  split_ifs at hs with hi
  obtain ⟨hheld, hpend⟩ := hi
  obtain ⟨r, hr, rfl⟩ := map_eq_some_iff.mp hs
  rw [runK_eq_some] at hr
  obtain ⟨-, hk⟩ := ok.inj hr
  rw [← hk]
  refine h.keep_ops ?_ (fun j _ => s.kern.sameName_brelse i j) (log_toFront _ _) rfl ?_ rfl rfl rfl rfl
  · have hrefs : Sys.refs { s with kern := (s.kern.addRef i (-1)).toFront i, held := s.held.erase i } =
        update s.refs i (s.refs i - 1) := by
      refine eq_update_iff.mpr ⟨?_, fun j hji => ?_⟩
      · have := count_pos_iff.mpr hheld
        simp only [Sys.refs, count_erase_self]
        omega
      · simp only [Sys.refs, count_erase_of_ne hji]
    rw [hrefs]
    exact h.counted.brelse (held_pos hheld)
  · intro op hop j hj
    have hji : j ≠ i := by
      rintro rfl
      exact hpend op hop hj
    exact (mem_erase_of_ne hji).mpr (h.pending op hop j hj).1

theorem mem_set {o : Nat} {ops : List FsOp} {op' x : FsOp} (hx : x ∈ ops.set o op') : x = op' ∨ x ∈ ops :=
  (mem_or_eq_of_mem_set hx).symm

section
variable (h : Accounted s t)
include h

/-- With an operation under way nobody commits. -/
theorem not_busy {o : Nat} {op : FsOp} (hop : s.ops[o]? = some op) : s.kern.log.committing = false := by
  by_contra hb
  rw [(h.busy (Bool.eq_true_of_not_eq_false hb)).1] at hop
  cases hop

theorem logCheck {o i : Nat} (hs : s.step (.logCheck o i) = some s') : Accounted s' t := by
  simp only [Sys.step] at hs
  split at hs
  · split_ifs at hs with hheld
    obtain ⟨r, hr, rfl⟩ := map_eq_some_iff.mp hs
    rw [runK_eq_some, logCheck_run] at hr
    split_ifs at hr
    obtain ⟨-, hk⟩ := ok.inj hr
    rw [← hk]
    refine h.keep h.counted (fun _ _ => ⟨rfl, rfl⟩) rfl ?_ length_set rfl rfl rfl rfl
    intro op hop j hj
    rcases mem_set hop with rfl | hop
    · obtain rfl : i = j := some.inj hj
      exact hheld
    · exact h.pending op hop j hj
  · cases hs

theorem logRecord {o : Nat} (hs : s.step (.logRecord o) = some s') : Accounted s' t := by
  simp only [Sys.step] at hs
  split at hs
  · rename_i blocks i hop
    obtain ⟨r, hr, rfl⟩ := map_eq_some_iff.mp hs
    rw [runK_eq_some, logRecord_run] at hr
    obtain ⟨-, hk⟩ := ok.inj hr
    obtain ⟨hheld, hdev⟩ := h.pending _ (mem_of_getElem? hop) i rfl
    have hn0 := h.nonneg
    have hpend : ∀ op ∈ s.ops.set o ⟨blocks.insert (s.kern.bufs i).blockno, none⟩, ∀ j, op.pending = some j →
        j ∈ s.held ∧ (s.kern.bufs j).dev = s.kern.log.dev := by
      intro op hop j hj
      rcases mem_set hop with rfl | hop
      · cases hj
      · exact h.pending op hop j hj
    rcases s.kern.log.lh.place_spec (s.kern.bufs i).blockno with ⟨hlt, hb⟩ | ⟨heq, hno⟩
    · -- absorbed: neither the header nor a count changes
      have hrec : s.kern.log.lh.record (s.kern.bufs i).blockno = s.kern.log.lh := by
        unfold LogHeader.record
        rw [if_neg (ne_of_lt hlt), update_eq_self_iff.mpr hb.symm]
      have hkern : r.2 = s.kern := by
        rw [← hk, if_neg (ne_of_lt hlt)]
        unfold record
        rw [hrec]
      rw [hkern, if_neg (lt_irrefl _)]
      exact h.keep h.counted (fun _ _ => ⟨rfl, rfl⟩) rfl hpend length_set rfl rfl rfl rfl
    · have hkern : r.2 = (s.kern.addRef i 1).record (s.kern.bufs i).blockno := by rw [← hk, if_pos heq]
      have hn : (s.kern.log.lh.record (s.kern.bufs i).blockno).n = s.kern.log.lh.n + 1 := if_pos heq
      have hname : ∀ j, s.kern.SameName ((s.kern.addRef i 1).record (s.kern.bufs i).blockno) j :=
        s.kern.sameName_addRef i 1
      have hrefs : ∀ k, Sys.refs { s with
          kern := k, pins := s.pins ++ [i], ops := s.ops.set o ⟨blocks.insert (s.kern.bufs i).blockno, none⟩ } =
          update s.refs i (s.refs i + 1) := by
        refine fun k => eq_update_iff.mpr ⟨?_, fun j hji => ?_⟩
        · simp only [Sys.refs, count_append, count_singleton_self]
          omega
        · simp [Sys.refs, Ne.symm hji]
      have hlt : s.kern.log.lh.n < ((s.kern.addRef i 1).record (s.kern.bufs i).blockno).log.lh.n := by
        show _ < (s.kern.log.lh.record (s.kern.bufs i).blockno).n
        omega
      rw [hkern, if_pos hlt]
      have hcnt := h.counted.addRef (x := 1) (c := s.refs i + 1) (h.counted.found i (held_pos hheld)) rfl
      constructor
      · rw [hrefs]
        exact ⟨hcnt.refs, hcnt.found⟩
      · intro p hp
        rw [(hname p.1).1, (hname p.1).2]
        exact h.mine p hp
      · intro op hop j hj
        rw [(hname j).1]
        exact hpend op hop j hj
      · show s.kern.log.outstanding = ((s.ops.set o _).length : Int)
        rw [length_set]
        exact h.count
      · show 0 ≤ (s.kern.log.lh.record (s.kern.bufs i).blockno).n
        omega
      · show (s.pins ++ [i]).length + t = (s.kern.log.lh.record (s.kern.bufs i).blockno).n.toNat
        have := h.pins
        rw [length_append, length_singleton]
        omega
      · intro j x hj
        rw [(hname x).1, (hname x).2]
        show _ ∧ (s.kern.bufs x).blockno =
          update s.kern.log.lh.block (s.kern.log.lh.place (s.kern.bufs i).blockno) _ (t + j)
        have hpins := h.pins
        rcases Nat.lt_or_ge j s.pins.length with hlen | hlen
        · rw [getElem?_append_left hlen] at hj
          rw [update_of_ne (by omega)]
          exact h.names j x hj
        · -- the new entry is the last
          rw [getElem?_append_right hlen, getElem?_singleton] at hj
          split_ifs at hj with hz
          obtain rfl : i = x := some.inj hj
          rw [heq, show t + j = s.kern.log.lh.n.toNat by omega, update_self]
          exact ⟨hdev, rfl⟩
      · exact h.behind
      · exact h.quiet
      · intro hb
        exact absurd ((h.not_busy hop).symm.trans hb) (by decide)
  · cases hs

theorem endOp {o : Nat} (hs : s.step (.endOp o) = some s') : Accounted s' t := by
  simp only [Sys.step] at hs
  split at hs
  · rename_i blocks hop
    obtain ⟨r, hr, rfl⟩ := map_eq_some_iff.mp hs
    rw [runK_eq_some, endOpLocked_run] at hr
    have ho : o < s.ops.length := (List.getElem?_eq_some_iff.mp hop).1
    have hlen : (s.ops.eraseIdx o).length = s.ops.length - 1 := length_eraseIdx_of_lt ho
    have hout := h.count
    obtain ⟨hdone, hmine, ht, hinst⟩ := h.quiet (h.not_busy hop)
    have hpend : ∀ op ∈ s.ops.eraseIdx o, ∀ j, op.pending = some j →
        j ∈ s.held ∧ (s.kern.bufs j).dev = s.kern.log.dev :=
      fun op hop j hj => h.pending op (mem_of_mem_eraseIdx hop) j hj
    have hcount : s.kern.log.outstanding - 1 = ((s.ops.eraseIdx o).length : Int) := by omega
    split_ifs at hr with hcom hlast
    · obtain ⟨h1, h2⟩ := ok.inj hr
      have hnil : s.ops.eraseIdx o = [] := length_eq_zero_iff.mp (by omega)
      rw [← h1, ← h2]
      refine ⟨⟨h.counted.refs, h.counted.found⟩, h.mine, hpend, hcount, h.nonneg, h.pins, h.names, h.behind,
        fun hq => (by cases hq), fun _ => ⟨hnil, ?_⟩⟩
      show Prog.Good s.kern.log.lh.block (if true = true ∧ (0 : Int) < s.kern.log.lh.n then _ else s.committer)
        s.kern.log.lh.n.toNat s.mine s.installed t
      rw [hmine, hinst, ht]
      split_ifs with hpos
      · exact commitProg_good _
      · rw [not_and] at hpos
        have := hpos rfl
        rw [hdone]
        exact ⟨by omega, rfl, rfl, rfl⟩
    · obtain ⟨h1, h2⟩ := ok.inj hr
      rw [← h1, ← h2]
      refine ⟨⟨h.counted.refs, h.counted.found⟩, h.mine, hpend, hcount, h.nonneg, h.pins, h.names, h.behind,
        ?_, fun hb => absurd hb hcom⟩
      exact h.quiet
  · cases hs

theorem commit_log {k : Kern} {p : Prog} {mine : List (Nat × UInt32)} {inst : Nat}
    (hbusy : s.kern.log.committing = true) (hcnt : Counted k (Sys.refs { s with mine := mine }))
    (hname : ∀ j, 0 < s.refs j → s.kern.SameName k j) (hlog : k.log = s.kern.log)
    (hmine : ∀ q ∈ mine, q ∈ s.mine ∨ (k.bufs q.1).dev = s.kern.log.dev ∧ (k.bufs q.1).blockno = q.2)
    (hinst : s.installed ≤ inst) (hgood : p.Good s.kern.log.lh.block s.kern.log.lh.n.toNat mine inst t) :
    Accounted { s with kern := k, committer := p, mine := mine, installed := inst } t := by
  refine h.of_log hcnt hname hlog hmine ?_ rfl rfl hinst (fun hq => ?_) fun _ => hgood
  · show ∀ op ∈ s.ops, _
    rw [(h.busy hbusy).1]
    exact fun op hop => absurd hop not_mem_nil
  · rw [hbusy] at hq
    cases hq

theorem commit_keep {k : Kern} {p : Prog} {inst : Nat} (hbusy : s.kern.log.committing = true)
    (horder : k.order = s.kern.order) (hname : ∀ j, s.kern.SameName k j) (hrefs : k.refs = s.kern.refs)
    (hlog : k.log = s.kern.log) (hinst : s.installed ≤ inst)
    (hgood : p.Good s.kern.log.lh.block s.kern.log.lh.n.toNat s.mine inst t) :
    Accounted { s with kern := k, committer := p, installed := inst } t :=
  h.commit_log hbusy (.frame s.kern horder hname (fun j => by rw [hrefs]; exact h.counted.refs j) h.counted.found)
    (fun j _ => hname j) hlog (fun _ => .inl) hinst hgood

theorem commit_bread {k : Nat → Prog} {b : UInt32} {i : Nat} {kern : Kern}
    (hbusy : s.kern.log.committing = true) (hprog : s.committer = .bread b k)
    (hr : Fs.bread s.kern.log.dev b s.kern = .ok i kern) :
    Accounted { s with kern := kern, mine := (i, b) :: s.mine, committer := k i } t := by
  obtain ⟨hc, hnm, hsame⟩ := h.counted.bread hr
  obtain ⟨-, hgood⟩ := h.busy hbusy
  rw [hprog] at hgood
  have hrefs : Sys.refs { s with mine := (i, b) :: s.mine } = update s.refs i (s.refs i + 1) := by
    refine eq_update_iff.mpr ⟨?_, fun j hji => ?_⟩
    · simp only [Sys.refs, map_cons, count_cons_self]
      omega
    · simp only [Sys.refs, map_cons, count_cons_of_ne (Ne.symm hji)]
  refine h.commit_log hbusy (hrefs ▸ hc) hsame (keepsLog_bread _ _ _ _ _ hr) (fun p hp => ?_) le_rfl (hgood i)
  rcases mem_cons.mp hp with rfl | hp
  · exact .inr hnm
  · exact .inl hp

theorem commit_brelse {k : Prog} {i : Nat} (hbusy : s.kern.log.committing = true)
    (hprog : s.committer = .brelse i k) : Accounted
      { s with
        kern := (s.kern.addRef i (-1)).toFront i
        committer := k
        mine := s.mine.eraseP fun p => p.1 == i } t := by
  obtain ⟨-, hgood⟩ := h.busy hbusy
  rw [hprog] at hgood
  obtain ⟨⟨b, hb⟩, hgood⟩ := hgood
  have hrefs : Sys.refs { s with mine := s.mine.eraseP fun p => p.1 == i } = update s.refs i (s.refs i - 1) := by
    refine eq_update_iff.mpr ⟨?_, fun j hji => ?_⟩
    · have := count_pos_iff.mpr (mem_map_of_mem (f := Prod.fst) hb)
      simp only [Sys.refs, map_eraseP, count_erase_self] at this ⊢
      omega
    · simp only [Sys.refs, map_eraseP, count_erase_of_ne hji]
  exact h.commit_log hbusy (hrefs ▸ h.counted.brelse (mine_pos hb)) (fun j _ => s.kern.sameName_brelse i j)
    (log_toFront _ _) (fun _ hp => .inl (mem_of_mem_eraseP hp)) le_rfl hgood

/-- The unpinned buffer is the first of those that are pinned. -/
theorem commit_bunpin {k : Prog} {i : Nat} (hbusy : s.kern.log.committing = true)
    (hprog : s.committer = .bunpin i k) :
    Accounted { s with kern := s.kern.addRef i (-1), committer := k, pins := s.pins.erase i } (t + 1) := by
  obtain ⟨hnil, hgood⟩ := h.busy hbusy
  rw [hprog] at hgood
  obtain ⟨hti, htn, hmem, hgood⟩ := hgood
  have hpl := h.pins
  obtain ⟨x, rest, hpins⟩ : ∃ x rest, s.pins = x :: rest := by
    cases hp : s.pins with
    | nil =>
      rw [hp] at hpl
      change 0 + t = _ at hpl
      omega
    | cons x rest => exact ⟨x, rest, rfl⟩
  have hx : x ∈ s.pins := by
    rw [hpins]
    exact mem_cons_self
  obtain ⟨hd, hb⟩ := h.names 0 x (by rw [hpins]; rfl)
  obtain ⟨hd', hb'⟩ := h.mine _ hmem
  obtain rfl : i = x := h.counted.unique (mine_pos hmem) (pins_pos hx) (hd'.trans hd.symm) (hb'.trans hb.symm)
  have hname := s.kern.sameName_addRef i (-1)
  have herase : s.pins.erase i = rest := by rw [hpins, erase_cons_head]
  rw [hpins] at hpl
  have hlen : rest.length + 1 + t = s.kern.log.lh.n.toNat := hpl
  have hrefs : Sys.refs { s with kern := s.kern.addRef i (-1), committer := k, pins := rest } =
      update s.refs i (s.refs i - 1) := by
    refine eq_update_iff.mpr ⟨?_, fun j hji => ?_⟩
    · simp only [Sys.refs, hpins, count_cons_self]
      omega
    · simp only [Sys.refs, hpins, count_cons_of_ne (Ne.symm hji)]
  rw [herase]
  have hpos := pins_pos hx
  have hcnt := h.counted.addRef (x := -1) (c := s.refs i - 1) (h.counted.found i hpos) (by omega)
  constructor
  · rw [hrefs]
    exact hcnt
  · intro p hp
    rw [(hname p.1).1, (hname p.1).2]
    exact h.mine p hp
  · show ∀ op ∈ s.ops, _
    rw [hnil]
    exact fun op hop => absurd hop not_mem_nil
  · exact h.count
  · exact h.nonneg
  · show rest.length + (t + 1) = s.kern.log.lh.n.toNat
    omega
  · intro j x hj
    rw [(hname x).1, (hname x).2]
    have hn := h.names (j + 1) x (by rw [hpins]; exact hj)
    rw [show t + 1 + j = t + (j + 1) by omega]
    exact hn
  · exact hti
  · intro hq
    exact absurd (hbusy.symm.trans hq) (by decide)
  · exact fun _ => ⟨hnil, hgood⟩

theorem commitStep (hs : s.step .commitStep = some s') : ∃ t', Accounted s' t' := by
  simp only [Sys.step] at hs
  split_ifs at hs with hbusy
  obtain ⟨hnil, hgood⟩ := h.busy hbusy
  unfold Sys.commitStep at hs
  split at hs <;> rename_i hprog <;> obtain ⟨r, hr, rfl⟩ := map_eq_some_iff.mp hs <;>
    rw [runK_eq_some] at hr <;> rw [hprog] at hgood
  · obtain ⟨hn, hmine, hinst, ht⟩ := hgood
    obtain ⟨-, hk⟩ := ok.inj hr
    rw [← hk]
    exact ⟨t, ⟨h.counted.refs, h.counted.found⟩, h.mine, h.pending, h.count, h.nonneg, h.pins, h.names, h.behind,
      fun _ => ⟨hprog, hmine, ht, hinst⟩, fun hb => (by cases hb)⟩
  · exact ⟨t, h.commit_bread hbusy hprog hr⟩
  iterate 2
    obtain ⟨-, hk⟩ := ok.inj hr
    rw [← hk]
    exact ⟨t, h.commit_keep hbusy rfl (sameName_setBuf rfl rfl) (refs_setData _ _ _) rfl (le_rfl) hgood⟩
  · obtain ⟨-, hk⟩ := ok.inj hr
    rw [← hk]
    exact ⟨t, h.commit_keep hbusy rfl (fun _ => ⟨rfl, rfl⟩) rfl rfl (le_rfl) hgood⟩
  · obtain ⟨-, hk⟩ := ok.inj hr
    rw [← hk]
    exact ⟨t, h.commit_keep hbusy rfl (fun _ => ⟨rfl, rfl⟩) rfl rfl (Nat.le_succ _) hgood.2⟩
  · obtain ⟨-, hk⟩ := ok.inj hr
    rw [← hk]
    exact ⟨t + 1, h.commit_bunpin hbusy hprog⟩
  · obtain ⟨-, hk⟩ := ok.inj hr
    rw [← hk]
    exact ⟨t, h.commit_brelse hbusy hprog⟩
  · -- all entries are unpinned when the header is cleared
    obtain ⟨-, hk⟩ := ok.inj hr
    obtain ⟨htn, hgood⟩ := hgood
    have hpins := h.pins
    have hnone : s.pins = [] := length_eq_zero_iff.mp (by omega)
    rw [← hk]
    refine ⟨0, ⟨h.counted.refs, h.counted.found⟩, h.mine, h.pending, h.count, le_refl 0, ?_, ?_, le_refl 0, ?_, ?_⟩
    · show s.pins.length + 0 = 0
      rw [hnone]
      rfl
    · intro j x hj
      change s.pins[j]? = some x at hj
      rw [hnone] at hj
      cases hj
    · intro hq
      exact absurd (hbusy.symm.trans hq) (by decide)
    · exact fun _ => ⟨hnil, hgood⟩

theorem step {c : Call} (hs : s.step c = some s') : ∃ t', Accounted s' t' := by
  cases c with
  | beginOp => exact ⟨t, h.beginOp hs⟩
  | bread dev b => exact ⟨t, h.bread hs⟩
  | store i data => exact ⟨t, h.store hs⟩
  | brelse i => exact ⟨t, h.brelse hs⟩
  | logCheck o i => exact ⟨t, h.logCheck hs⟩
  | logRecord o => exact ⟨t, h.logRecord hs⟩
  | endOp o => exact ⟨t, h.endOp hs⟩
  | commitStep => exact h.commitStep hs

end

end Accounted

/-! ## Boot without anything to recover -/

section
variable {s s' : Kern} {cnt : Nat → Nat} {i : Nat} {dev b : UInt32}

theorem Counted.setLog (h : Counted s cnt) (log : Log) : Counted { s with log := log } cnt := ⟨h.refs, h.found⟩

theorem counted_binit (image : UInt32 → Block) (log : Log) : Counted (binit image log) fun _ => 0 :=
  ⟨fun _ => rfl, fun _ h => absurd h (Nat.lt_irrefl 0)⟩

theorem bread_fresh (h : Counted s cnt) (hinv : ∀ j, (s.bufs j).valid = false) (hr : bread dev b s = .ok i s') :
    (s'.bufs i).data = s.disk b := by
  obtain ⟨k, s1, h1, hr⟩ := bind_ok hr
  obtain ⟨_, s2, h2, hr⟩ := bind_ok hr
  cases h2
  obtain ⟨rfl, rfl⟩ := ok.inj hr
  obtain ⟨-, ⟨-, hb⟩, -, -⟩ := h.bget h1
  have hk : (s1.bufs k).valid = false ∧ s1.disk = s.disk := by
    unfold Fs.bget at h1
    split at h1
    · obtain ⟨rfl, rfl⟩ := ok.inj h1
      rw [Kern.setBuf_self]
      exact ⟨hinv _, rfl⟩
    · split at h1
      · obtain ⟨rfl, rfl⟩ := ok.inj h1
        rw [Kern.setBuf_self]
        exact ⟨rfl, rfl⟩
      · cases h1
  show ((s1.fill k).bufs k).data = s.disk b
  unfold fill
  rw [hk.1, if_neg (by decide), Kern.setBuf_self, hb, hk.2]

theorem update_twice (i : Nat) : update (update (fun _ : Nat => 0) i 1) i (1 - 1) = fun _ => 0 := by
  rw [update_idem]
  exact update_eq_self ..

theorem Counted.read_release (h : Counted s fun _ => 0) {k k' : Kern} (hr : Fs.bread dev b s = .ok i s')
    (hrel : Fs.brelse i k = .ok () k') (hk : ∀ j, s'.SameName k j) (horder : k.order = s'.order)
    (hrefs : k.refs = s'.refs) : Counted k' fun _ => 0 := by
  obtain ⟨hc, -, -⟩ := h.bread hr
  have hc' : Counted k (update (fun _ => 0) i 1) :=
    .frame s' horder hk (fun j => by rw [hrefs]; exact hc.refs j) hc.found
  obtain ⟨-, rfl⟩ := ok.inj hrel
  have hb := hc'.brelse (i := i) (by rw [update_self]; exact Nat.one_pos)
  rw [update_self, update_twice] at hb
  exact hb

end

theorem Boots.accounted {image : UInt32 → Block} {dev logstart : UInt32} {nlog : Int} {s : Sys}
    (h : Boots image dev logstart nlog s) (h0 : headN (image logstart) ≤ 0) : Accounted s 0 := by
  obtain ⟨k, hk, rfl⟩ := h
  obtain ⟨_, k1, h1, hrec⟩ := bind_ok hk
  obtain ⟨-, rfl⟩ := ok.inj h1
  obtain ⟨_, k2, h2, hrest⟩ := bind_ok hrec
  obtain ⟨_, k3, h3, hclear⟩ := bind_ok hrest
  obtain ⟨_, k4, h4, hwrite⟩ := bind_ok hclear
  obtain ⟨-, rfl⟩ := ok.inj h4
  have hc1 := (counted_binit image Log.zero).setLog { Log.zero with start := logstart, size := nlog, dev := dev }
  -- `read_head`
  obtain ⟨buf, r1, hb, h2⟩ := bind_ok (x := bread dev logstart) h2
  obtain ⟨_, r2, hg, h2⟩ := bind_ok h2
  cases hg
  obtain ⟨_, r3, hl, hrel⟩ := bind_ok h2
  obtain ⟨-, rfl⟩ := ok.inj hl
  have hdata : (r1.bufs buf).data = image logstart := bread_fresh hc1 (fun _ => rfl) hb
  have hc2 : Counted k2 fun _ => 0 := hc1.read_release hb hrel (fun _ => ⟨rfl, rfl⟩) rfl rfl
  have hlog2 := keepsLog_brelse _ _ _ _ hrel
  have hn : k2.log.lh.n ≤ 0 := by
    rw [hlog2]
    show headN (r1.bufs buf).data ≤ 0
    rw [hdata]
    exact h0
  have hidle : k2.log.outstanding = 0 ∧ k2.log.committing = false := by
    rw [hlog2]
    show r1.log.outstanding = 0 ∧ r1.log.committing = false
    rw [keepsLog_bread _ _ _ _ _ hb]
    exact ⟨rfl, rfl⟩
  -- `install_trans` has nothing to do
  have hk3 : k2 = k3 := by
    change upto (installStep k2.log) k2.log.lh.n.toNat k2 = _ at h3
    rw [Int.toNat_of_nonpos hn] at h3
    exact (ok.inj h3).2
  rw [hk3] at hc2 hidle
  -- `write_head`
  have hc4 := hc2.setLog { k3.log with lh := { k3.log.lh with n := 0 } }
  have hlog := keepsLog_writeHead _ _ _ hwrite
  obtain ⟨buf', w1, hb', hwrite⟩ := bind_ok (x := bread k3.log.dev k3.log.start) hwrite
  obtain ⟨_, w2, hw, hwrite⟩ := bind_ok hwrite
  obtain ⟨-, rfl⟩ := ok.inj hw
  obtain ⟨_, w3, hw, hrel'⟩ := bind_ok hwrite
  obtain ⟨-, rfl⟩ := ok.inj hw
  have hc5 : Counted k fun _ => 0 :=
    hc4.read_release hb' hrel' (sameName_setBuf rfl rfl) rfl (refs_setData _ _ _)
  constructor
  · exact hc5
  · exact fun p hp => absurd hp not_mem_nil
  · exact fun op hop => absurd hop not_mem_nil
  · show k.log.outstanding = 0
    rw [hlog]
    exact hidle.1
  · show 0 ≤ k.log.lh.n
    rw [hlog]
  · show 0 = k.log.lh.n.toNat
    rw [hlog]
    rfl
  · exact fun j i hj => by cases hj
  · exact le_refl 0
  · exact fun _ => ⟨rfl, rfl, rfl, rfl⟩
  · intro hbusy
    change k.log.committing = true at hbusy
    rw [hlog] at hbusy
    change k3.log.committing = true at hbusy
    rw [hidle.2] at hbusy
    cases hbusy

/-! ## The invariant in every state -/

structure CacheOk (s : Sys) : Prop where
  /-- One buffer for a block. -/
  one : ∀ i ∈ s.kern.order, ∀ j ∈ s.kern.order, (s.kern.bufs i).dev = (s.kern.bufs j).dev →
    (s.kern.bufs i).blockno = (s.kern.bufs j).blockno → s.kern.refs i ≠ 0 → s.kern.refs j ≠ 0 → i = j
  /-- The count is that of the holders and the pins. -/
  counts : ∀ i, s.kern.refs i = ((s.held.count i + (s.mine.map Prod.fst).count i + s.pins.count i : Nat) : Int)
  /-- A recorded block that is not installed has a buffer, which no `bread` recycles. -/
  kept : ∀ e, s.installed ≤ e → e < s.kern.log.lh.n.toNat → ∃ i ∈ s.kern.order,
    (s.kern.bufs i).dev = s.kern.log.dev ∧ (s.kern.bufs i).blockno = s.kern.log.lh.block e ∧
      ∀ dev b j k, bread dev b s.kern = .ok j k → s.kern.SameName k i

theorem Accounted.ok {s : Sys} {t : Nat} (h : Accounted s t) : CacheOk s := by
  have hpos : ∀ i, s.kern.refs i ≠ 0 → 0 < s.refs i := by
    intro i hi
    rw [h.counted.refs] at hi
    omega
  refine ⟨fun i _ j _ hd hb hi hj => h.counted.unique (hpos i hi) (hpos j hj) hd hb, h.counted.refs, ?_⟩
  intro e he hen
  have hlen := h.pins
  have hbehind := h.behind
  obtain ⟨i, hi⟩ : ∃ i, s.pins[e - t]? = some i := ⟨_, getElem?_eq_getElem (by omega)⟩
  obtain ⟨hd, hb⟩ := h.names _ i hi
  rw [show t + (e - t) = e by omega] at hb
  have hp := pins_pos (s := s) (mem_of_getElem? hi)
  exact ⟨i, find_mem (h.counted.found i hp), hd, hb, fun dev b j k hr => (h.counted.bread hr).2.2 i hp⟩

/-- **Buffer cache.**  When there was nothing to recover at boot, reference counts are those of the holders and
the pins in every state of a run, one buffer in use is for a block, and recorded blocks stay in the cache
until they are installed. -/
theorem bufferCache {image : UInt32 → Block} {dev logstart : UInt32} {nlog : Int} {s₀ s : Sys} {calls : List Call}
    (hboot : Boots image dev logstart nlog s₀) (h0 : headN (image logstart) ≤ 0)
    (hrun : Run (fun s c s' => s.step c = some s') s₀ calls s) : CacheOk s := by
  obtain ⟨t, h⟩ := hrun.inv (I := fun s => ∃ t, Accounted s t) (fun s c s' ⟨t, h⟩ hs => h.step hs)
    ⟨0, hboot.accounted h0⟩
  exact h.ok

/-- In the middle of the commit of one block. -/
theorem bufferCache_commit : ∃ s, Boots (fun _ _ => 0) 1 2 logsize freshSys ∧
    headN ((fun _ _ => 0 : UInt32 → Block) 2) ≤ 0 ∧
    Run (fun s c s' => Sys.step s c = some s') freshSys
      ([.beginOp, .bread 1 100, .logCheck 0 1, .logRecord 0, .brelse 1, .endOp 0] ++
        List.replicate 14 .commitStep) s ∧
    s.pins = [1] ∧ s.mine.length = 2 ∧ CacheOk s := by
  have h0 : headN ((fun _ _ => 0 : UInt32 → Block) 2) ≤ 0 := by decide +kernel
  refine (Run.find (P := fun s => s.pins = [1] ∧ s.mine.length = 2) ?_ ?_).imp fun s hs => ⟨freshSys_boots, h0, hs⟩
  · decide +kernel
  · exact fun s hs hv => ⟨hv.1, hv.2, bufferCache freshSys_boots h0 hs⟩

/-- After the recovery of one block its buffer has a count below zero. -/
theorem bufferCache_recovery : ∃ s, Boots oneEntry 1 2 logsize s ∧ headN (oneEntry 2) = 1 ∧
    (s.held, s.mine, s.pins) = ([], [], []) ∧
    (∃ i ∈ s.kern.order, (s.kern.bufs i).blockno = 60 ∧ s.kern.refs i = -1) ∧ ¬ CacheOk s := by
  have hend := ok_endState (x := initlog 1 2 logsize) (s := binit oneEntry Log.zero) (by decide +kernel)
  have hrefs : (endState (initlog 1 2 logsize) (binit oneEntry Log.zero)).refs 2 = -1 := by decide +kernel
  refine ⟨_, ⟨_, hend, rfl⟩, by decide +kernel, rfl, ⟨2, by decide +kernel, by decide +kernel, hrefs⟩, fun h => ?_⟩
  have := h.counts 2
  dsimp only at this
  omega

end InternetOs.Fs
