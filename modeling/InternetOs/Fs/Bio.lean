import InternetOs.Lib.Emit
import InternetOs.Lib.RedoLog

/-!
# The buffer cache (`kernel/fs/bio.c`)

The state of the disk and of the kernel memory the log works with: the buffers, their order
from `head.next` to `head.prev`, and the log's own record.  The disk is an image with the
writes since then; writing a block is one atomic step.  A `panic` stops a program and leaves
the state it has reached, the writes included.

`refcnt` is an `Int`: what wraps below zero in the source is negative here.  The locks are
left out: each buffer is used by the one who has read it.

`Cached dev v s`: seen through the cache the device holds `v`.  A block that differs from the
disk is in a buffer with a positive count, so no `bget` recycles it.
-/

namespace InternetOs.Fs

open Function List

/-- `BSIZE`. -/
def bsize : Nat := 1024

/-- `NBUF`. -/
def nbuf : Nat := 30

abbrev Block : Type := Fin bsize → UInt8

structure Buf where
  valid : Bool
  dev : UInt32
  blockno : UInt32
  refcnt : Int
  data : Block

/-- `struct logheader`. -/
structure LogHeader where
  n : Int
  block : Nat → UInt32

/-- `struct log`. -/
structure Log where
  start : UInt32
  size : Int
  outstanding : Int
  committing : Bool
  dev : UInt32
  lh : LogHeader

structure Kern where
  bufs : Nat → Buf
  order : List Nat
  log : Log
  image : UInt32 → Block
  writes : List (UInt32 × Block)

/-- What is on the disk now. -/
def Kern.disk (s : Kern) : UInt32 → Block := applyWrites s.image s.writes

def Kern.setBuf (s : Kern) (i : Nat) (b : Buf) : Kern := { s with bufs := update s.bufs i b }

/-- A program in the kernel; an error is the text of a `panic`. -/
abbrev K (α : Type) : Type := EStateM String Kern α

/-! ## The functions -/

/-- The buffers as `binit` leaves them: each is inserted at the head. -/
def binit (image : UInt32 → Block) (log : Log) : Kern :=
  { bufs := fun _ => { valid := false, dev := 0, blockno := 0, refcnt := 0, data := fun _ => 0 }
    order := (List.range nbuf).reverse
    log := log, image := image, writes := [] }

def bget (dev blockno : UInt32) : K Nat := fun s =>
  match s.order.find? fun i => (s.bufs i).dev == dev && (s.bufs i).blockno == blockno with
  | some i => .ok i (s.setBuf i { s.bufs i with refcnt := (s.bufs i).refcnt + 1 })
  | none =>
    match s.order.reverse.find? fun i => (s.bufs i).refcnt == 0 with
    | some i =>
      .ok i (s.setBuf i { s.bufs i with dev := dev, blockno := blockno, valid := false, refcnt := 1 })
    | none => .error "bget: no buffers" s

/-- `virtio_disk_rw` of a buffer that has not been read yet. -/
def Kern.fill (s : Kern) (i : Nat) : Kern :=
  if (s.bufs i).valid then s
  else s.setBuf i { s.bufs i with data := s.disk (s.bufs i).blockno, valid := true }

def bread (dev blockno : UInt32) : K Nat := do
  let i ← bget dev blockno
  modify (Kern.fill · i)
  return i

def Kern.write (s : Kern) (i : Nat) : Kern :=
  { s with writes := s.writes ++ [((s.bufs i).blockno, (s.bufs i).data)] }

def bwrite (i : Nat) : K Unit := modify (Kern.write · i)

def Kern.addRef (s : Kern) (i : Nat) (x : Int) : Kern :=
  s.setBuf i { s.bufs i with refcnt := (s.bufs i).refcnt + x }

/-- A buffer without references moves to the front. -/
def Kern.toFront (s : Kern) (i : Nat) : Kern :=
  if (s.bufs i).refcnt = 0 then { s with order := i :: s.order.erase i } else s

def brelse (i : Nat) : K Unit := modify fun s => (s.addRef i (-1)).toFront i

def bpin (i : Nat) : K Unit := modify (Kern.addRef · i 1)

def bunpin (i : Nat) : K Unit := modify (Kern.addRef · i (-1))

/-- The caller writes to `b->data`. -/
def Kern.setData (s : Kern) (i : Nat) (data : Block) : Kern := s.setBuf i { s.bufs i with data := data }

/-- `memmove(dst->data, src->data, BSIZE)`. -/
def memmove (dst src : Nat) : K Unit := modify fun s => s.setData dst (s.bufs src).data

/-! ## The device through the cache -/

def Kern.refs (s : Kern) (i : Nat) : Int := (s.bufs i).refcnt

/-- Buffer `i` is for block `b`. -/
def Kern.Named (s : Kern) (dev b : UInt32) (i : Nat) : Prop :=
  i ∈ s.order ∧ (s.bufs i).dev = dev ∧ (s.bufs i).blockno = b

/-- Buffer `i` holds block `b`. -/
def Kern.Has (s : Kern) (dev b : UInt32) (i : Nat) : Prop := s.Named dev b i ∧ (s.bufs i).valid = true

structure Cached (dev : UInt32) (v : UInt32 → Block) (s : Kern) : Prop where
  nodup : s.order.Nodup
  one : ∀ b i j, s.Named dev b i → s.Named dev b j → i = j
  data : ∀ b i, s.Has dev b i → (s.bufs i).data = v b
  dirty : ∀ b, v b ≠ s.disk b → ∃ i, s.Has dev b i ∧ 0 < s.refs i

/-- `bread` of block `b` has returned buffer `i`: it was the block's own, or nobody's. -/
structure Kern.Fetched (s : Kern) (dev b : UInt32) (i : Nat) (s' : Kern) : Prop where
  has : s'.Has dev b i
  was : s.Named dev b i ∨ s.refs i = 0
  refs : s'.refs = update s.refs i (s.refs i + 1)
  other : ∀ j, j ≠ i → s'.bufs j = s.bufs j
  order : s'.order = s.order
  log : s'.log = s.log
  image : s'.image = s.image
  writes : s'.writes = s.writes

section
variable {s s' : Kern} {dev b : UInt32} {i j : Nat} {v : UInt32 → Block} {may : Prop}

theorem Kern.Fetched.disk (h : s.Fetched dev b i s') : s'.disk = s.disk := by
  unfold Kern.disk
  rw [h.image, h.writes]

/-- A buffer in use keeps its block while another is fetched. -/
theorem Kern.Fetched.keeps (h : s.Fetched dev b i s') (hj : s.refs j ≠ 0) {b' : UInt32}
    (hh : s.Has dev b' j) : s'.Has dev b' j := by
  by_cases hji : j = i
  · subst hji
    obtain hn := h.was.resolve_right hj
    obtain rfl : b = b' := hn.2.2.symm.trans hh.1.2.2
    exact h.has
  · unfold Kern.Has Kern.Named at hh ⊢
    rw [h.other j hji, h.order]
    exact hh

/-- The conditions under which `bget` finds a buffer. -/
theorem bget_emits (hfree : ¬ may → (∃ i, s.Named dev b i) ∨ ∃ i ∈ s.order, s.refs i = 0) :
    Emits Kern.image Kern.writes may (bget dev b) s [] fun i s' => i ∈ s.order ∧
      ((s.Named dev b i ∧ s' = s.setBuf i { s.bufs i with refcnt := s.refs i + 1 }) ∨
        ((∀ j, ¬ s.Named dev b j) ∧ s.refs i = 0 ∧
          s' = s.setBuf i { s.bufs i with dev := dev, blockno := b, valid := false, refcnt := 1 })) := by
  unfold Emits bget
  cases hf : s.order.find? fun i => (s.bufs i).dev == dev && (s.bufs i).blockno == b with
  | some i =>
    have hi : i ∈ s.order := mem_of_find?_eq_some hf
    have hp := find?_some hf
    simp only [Bool.and_eq_true, beq_iff_eq] at hp
    exact ⟨rfl, (append_nil _).symm, hi, .inl ⟨⟨hi, hp⟩, rfl⟩⟩
  | none =>
    have hno : ∀ j, ¬ s.Named dev b j := by
      rintro j ⟨hj, h1, h2⟩
      simpa [h1, h2] using find?_eq_none.mp hf j hj
    cases hr : s.order.reverse.find? fun i => (s.bufs i).refcnt == 0 with
    | some i =>
      have hi : i ∈ s.order := mem_reverse.mp (mem_of_find?_eq_some hr)
      have hp := find?_some hr
      simp only [beq_iff_eq] at hp
      exact ⟨rfl, (append_nil _).symm, hi, .inr ⟨hno, hp, rfl⟩⟩
    | none =>
      refine ⟨?_, rfl, [], nil_prefix, (append_nil _).symm⟩
      by_contra hm
      rcases hfree hm with ⟨i, hi⟩ | ⟨i, hi, h0⟩
      · exact hno i hi
      · have := find?_eq_none.mp hr i (mem_reverse.mpr hi)
        simp only [beq_iff_eq] at this
        exact this h0

@[simp] theorem Kern.setBuf_self (s : Kern) (i : Nat) (x : Buf) : (s.setBuf i x).bufs i = x := by
  simp [Kern.setBuf]

theorem Kern.setBuf_ne (s : Kern) (x : Buf) (h : j ≠ i) : (s.setBuf i x).bufs j = s.bufs j := by
  simp [Kern.setBuf, h]

theorem Kern.named_setBuf {x : Buf} (hb : x.blockno = b) {b' : UInt32}
    (h : (s.setBuf i x).Named dev b' j) : j = i ∧ b' = b ∨ j ≠ i ∧ s.Named dev b' j := by
  by_cases hji : j = i
  · subst hji
    exact .inl ⟨rfl, by rw [← h.2.2, Kern.setBuf_self, hb]⟩
  · refine .inr ⟨hji, ?_⟩
    unfold Kern.Named at h ⊢
    rwa [s.setBuf_ne x hji] at h

theorem Kern.has_setBuf_ne {x : Buf} (hji : j ≠ i) {b' : UInt32} (h : s.Has dev b' j) :
    (s.setBuf i x).Has dev b' j := by
  unfold Kern.Has Kern.Named at h ⊢
  rw [s.setBuf_ne x hji]
  exact h

/-- Buffer `i`, which was the block's own or nobody's, comes to hold block `b`. -/
theorem Cached.fetch (h : Cached dev v s) (hi : i ∈ s.order) (hwas : s.Named dev b i ∨ s.refs i = 0)
    (honly : ∀ j, s.Named dev b j → j = i) (hnn : 0 ≤ s.refs i) {x : Buf} (hxd : x.dev = dev)
    (hxb : x.blockno = b) (hxv : x.valid = true) (hxr : x.refcnt = s.refs i + 1)
    (hxdata : x.data = v b) : s.Fetched dev b i (s.setBuf i x) ∧ Cached dev v (s.setBuf i x) := by
  have hhas : (s.setBuf i x).Has dev b i := by
    refine ⟨⟨hi, ?_, ?_⟩, ?_⟩ <;> rw [Kern.setBuf_self] <;> assumption
  refine ⟨⟨hhas, hwas, ?_, fun j hj => s.setBuf_ne x hj, rfl, rfl, rfl, rfl⟩, ⟨h.nodup, ?_, ?_, ?_⟩⟩
  · funext j
    by_cases hji : j = i
    · subst hji
      rw [update_self, Kern.refs, Kern.setBuf_self, hxr]
    · rw [update_of_ne hji, Kern.refs, s.setBuf_ne x hji]
      rfl
  · intro b' j j' hj hj'
    rcases Kern.named_setBuf hxb hj with ⟨rfl, rfl⟩ | ⟨hji, hjs⟩
    · rcases Kern.named_setBuf hxb hj' with ⟨rfl, -⟩ | ⟨hji, hjs⟩
      · rfl
      · exact absurd (honly j' hjs) hji
    · rcases Kern.named_setBuf hxb hj' with ⟨rfl, rfl⟩ | ⟨-, hjs'⟩
      · exact absurd (honly j hjs) hji
      · exact h.one b' j j' hjs hjs'
  · rintro b' j ⟨hj, hval⟩
    rcases Kern.named_setBuf hxb hj with ⟨rfl, rfl⟩ | ⟨hji, hjs⟩
    · rw [Kern.setBuf_self, hxdata]
    · rw [s.setBuf_ne x hji] at hval ⊢
      exact h.data b' j ⟨hjs, hval⟩
  · intro b' hb'
    obtain ⟨j, hj, hpos⟩ := h.dirty b' hb'
    by_cases hji : j = i
    · subst hji
      obtain hn := hwas.resolve_right (by omega)
      obtain rfl : b = b' := hn.2.2.symm.trans hj.1.2.2
      refine ⟨j, hhas, ?_⟩
      rw [Kern.refs, Kern.setBuf_self]
      omega
    · refine ⟨j, Kern.has_setBuf_ne hji hj, ?_⟩
      rw [Kern.refs, s.setBuf_ne x hji]
      exact hpos

theorem Cached.clean (h : Cached dev v s) (hno : ∀ i, ¬ s.Has dev b i) : v b = s.disk b := by
  by_contra hne
  obtain ⟨j, hj, -⟩ := h.dirty b hne
  exact hno j hj

/-- **`bread`** returns a buffer with the block as seen through the cache, and changes nothing
that can be seen. -/
theorem bread_emits (h : Cached dev v s) (hfree : ¬ may → (∃ i, s.Named dev b i) ∨ ∃ i ∈ s.order, s.refs i = 0)
    (hnn : ∀ i, s.Named dev b i → 0 ≤ s.refs i) : Emits Kern.image Kern.writes may (bread dev b) s [] fun i s' =>
      s.Fetched dev b i s' ∧ Cached dev v s' ∧ 0 ≤ s.refs i := by
  refine (bget_emits hfree).seq fun i s1 ⟨hi, hs1⟩ => ?_
  refine (Emits.modify (Q := fun _ s' => s.Fetched dev b i s' ∧ Cached dev v s' ∧ 0 ≤ s.refs i)
    ?_ ?_ ?_).seq fun _ s' hs' => Emits.pure hs'
  · unfold Kern.fill
    split <;> rfl
  · unfold Kern.fill
    split <;> exact (append_nil _).symm
  rcases hs1 with ⟨hn, rfl⟩ | ⟨hno, h0, rfl⟩
  · have honly : ∀ j, s.Named dev b j → j = i := fun j hj => h.one b j i hj hn
    have hi0 : 0 ≤ s.refs i := hnn i hn
    unfold Kern.fill
    by_cases hval : (s.bufs i).valid = true
    · rw [if_pos (by simpa using hval)]
      have hf := h.fetch hi (.inl hn) honly hi0 (x := { s.bufs i with refcnt := s.refs i + 1 })
        hn.2.1 hn.2.2 hval rfl (h.data b i ⟨hn, hval⟩)
      exact ⟨hf.1, hf.2, hi0⟩
    · rw [if_neg (by simpa using hval)]
      have hdisk : s.disk (s.bufs i).blockno = v b := by
        rw [hn.2.2]
        refine (h.clean fun j hj => hval ?_).symm
        rw [← honly j hj.1]
        exact hj.2
      have hf := h.fetch hi (.inl hn) honly hi0 (x := { s.bufs i with
        data := s.disk (s.bufs i).blockno, valid := true, refcnt := s.refs i + 1 })
        hn.2.1 hn.2.2 rfl rfl hdisk
      simpa [Kern.setBuf, Kern.disk, hi0] using hf
  · unfold Kern.fill
    have hf := h.fetch hi (.inr h0) (fun j hj => absurd hj (hno j)) (Int.le_of_eq h0.symm)
      (x := { s.bufs i with dev := dev, blockno := b, valid := true, refcnt := 1, data := s.disk b })
      rfl rfl rfl (by rw [h0]; rfl) (h.clean fun j hj => hno j hj.1).symm
    simpa [Kern.setBuf, Kern.disk, h0] using hf

/-! ### What leaves the buffers their blocks -/

/-- The buffers are for the same blocks, maybe in another order. -/
structure Kern.Same (s s' : Kern) : Prop where
  order : s'.order.Perm s.order
  bufs : ∀ j, (s'.bufs j).dev = (s.bufs j).dev ∧ (s'.bufs j).blockno = (s.bufs j).blockno ∧
    (s'.bufs j).valid = (s.bufs j).valid
  log : s'.log = s.log

theorem Kern.Same.trans {s'' : Kern} (h : s.Same s') (h' : s'.Same s'') : s.Same s'' :=
  ⟨h'.order.trans h.order, fun j => ⟨(h'.bufs j).1.trans (h.bufs j).1,
    (h'.bufs j).2.1.trans (h.bufs j).2.1, (h'.bufs j).2.2.trans (h.bufs j).2.2⟩, h'.log.trans h.log⟩

theorem Kern.Same.named (h : s.Same s') : s'.Named dev b i ↔ s.Named dev b i := by
  unfold Kern.Named
  rw [h.order.mem_iff, (h.bufs i).1, (h.bufs i).2.1]

theorem Kern.Same.has (h : s.Same s') : s'.Has dev b i ↔ s.Has dev b i := by
  unfold Kern.Has
  rw [h.named, (h.bufs i).2.2]

theorem Kern.same_setBuf {x : Buf} (hd : x.dev = (s.bufs i).dev) (hb : x.blockno = (s.bufs i).blockno)
    (hv : x.valid = (s.bufs i).valid) : s.Same (s.setBuf i x) := by
  refine ⟨.refl _, fun j => ?_, rfl⟩
  by_cases hji : j = i
  · subst hji
    rw [Kern.setBuf_self]
    exact ⟨hd, hb, hv⟩
  · rw [s.setBuf_ne x hji]
    exact ⟨rfl, rfl, rfl⟩

theorem Kern.same_setData (s : Kern) (i : Nat) (data : Block) : s.Same (s.setData i data) :=
  Kern.same_setBuf rfl rfl rfl

theorem Kern.same_addRef (s : Kern) (i : Nat) (x : Int) : s.Same (s.addRef i x) :=
  Kern.same_setBuf rfl rfl rfl

theorem Kern.same_write (s : Kern) (i : Nat) : s.Same (s.write i) :=
  ⟨List.Perm.refl _, fun _ => ⟨rfl, rfl, rfl⟩, rfl⟩

theorem Kern.same_toFront (hi : i ∈ s.order) : s.Same (s.toFront i) := by
  unfold Kern.toFront
  split
  · exact ⟨(perm_cons_erase hi).symm, fun _ => ⟨rfl, rfl, rfl⟩, rfl⟩
  · exact ⟨.refl _, fun _ => ⟨rfl, rfl, rfl⟩, rfl⟩

@[simp] theorem Kern.refs_setData (s : Kern) (i : Nat) (data : Block) : (s.setData i data).refs = s.refs := by
  funext j
  by_cases hji : j = i
  · subst hji
    simp [Kern.refs, Kern.setData]
  · simp [Kern.refs, Kern.setData, s.setBuf_ne _ hji]

@[simp] theorem Kern.refs_addRef (s : Kern) (i : Nat) (x : Int) :
    (s.addRef i x).refs = update s.refs i (s.refs i + x) := by
  funext j
  by_cases hji : j = i
  · subst hji
    simp [Kern.refs, Kern.addRef]
  · simp [Kern.refs, Kern.addRef, s.setBuf_ne _ hji, hji]

@[simp] theorem Kern.refs_write (s : Kern) (i : Nat) : (s.write i).refs = s.refs := rfl

@[simp] theorem Kern.refs_toFront (s : Kern) (i : Nat) : (s.toFront i).refs = s.refs := by
  unfold Kern.toFront
  split <;> rfl

@[simp] theorem Kern.disk_addRef (s : Kern) (i : Nat) (x : Int) : (s.addRef i x).disk = s.disk := rfl

@[simp] theorem Kern.disk_toFront (s : Kern) (i : Nat) : (s.toFront i).disk = s.disk := by
  unfold Kern.toFront
  split <;> rfl

theorem Kern.disk_write (s : Kern) (i : Nat) :
    (s.write i).disk = update s.disk (s.bufs i).blockno (s.bufs i).data := by
  simp [Kern.disk, Kern.write, applyWrites_append]

section
variable (h : Cached dev v s)
include h

theorem Cached.of_same {v' : UInt32 → Block} (hs : s.Same s')
    (hdata : ∀ b i, s.Has dev b i → (s'.bufs i).data = v' b)
    (hdirty : ∀ b, v' b ≠ s'.disk b → ∃ i, s.Has dev b i ∧ 0 < s'.refs i) : Cached dev v' s' := by
  refine ⟨hs.order.nodup_iff.mpr h.nodup, fun b i j hi hj => ?_, fun b i hi => hdata b i (hs.has.mp hi),
    fun b hb => ?_⟩
  · exact h.one b i j (hs.named.mp hi) (hs.named.mp hj)
  · obtain ⟨i, hi, hpos⟩ := hdirty b hb
    exact ⟨i, hs.has.mpr hi, hpos⟩

theorem Cached.setData (hi : s.Has dev b i) (hpos : 0 < s.refs i) (data : Block) :
    Cached dev (update v b data) (s.setData i data) := by
  refine h.of_same (s.same_setData i data) (fun b' j hj => ?_) fun b' hb' => ?_
  · by_cases hji : j = i
    · subst hji
      obtain rfl : b = b' := hi.1.2.2.symm.trans hj.1.2.2
      simp [Kern.setData]
    · have hb : b' ≠ b := fun hb => hji (h.one b j i (hb ▸ hj.1) hi.1)
      rw [update_of_ne hb, Kern.setData, s.setBuf_ne _ hji]
      exact h.data b' j hj
  · rw [Kern.refs_setData]
    by_cases hb : b' = b
    · exact ⟨i, hb ▸ hi, hpos⟩
    · rw [update_of_ne hb] at hb'
      exact h.dirty b' hb'

theorem Cached.write (hi : s.Has dev b i) :
    Cached dev v (s.write i) ∧ (s.write i).disk = update s.disk b (v b) := by
  have hdisk : (s.write i).disk = update s.disk b (v b) := by
    rw [s.disk_write, hi.1.2.2, h.data b i hi]
  refine ⟨h.of_same (s.same_write i) h.data fun b' hb' => h.dirty b' ?_, hdisk⟩
  rw [hdisk] at hb'
  by_cases hb : b' = b
  · subst hb
    simp at hb'
  · rwa [update_of_ne hb] at hb'

theorem Cached.addRef (hi : s.Has dev b i) {x : Int}
    (hx : v b = s.disk b ∨ 0 < s.refs i + x) : Cached dev v (s.addRef i x) := by
  refine h.of_same (s.same_addRef i x) (fun b' j hj => ?_) fun b' hb' => ?_
  · by_cases hji : j = i
    · subst hji
      simpa [Kern.addRef] using h.data b' j hj
    · rw [Kern.addRef, s.setBuf_ne _ hji]
      exact h.data b' j hj
  · obtain ⟨j, hj, hpos⟩ := h.dirty b' hb'
    refine ⟨j, hj, ?_⟩
    rw [Kern.refs_addRef]
    by_cases hji : j = i
    · subst hji
      obtain rfl : b = b' := hi.1.2.2.symm.trans hj.1.2.2
      rw [update_self]
      exact hx.resolve_left hb'
    · rw [update_of_ne hji]
      exact hpos

theorem Cached.toFront (hi : i ∈ s.order) : Cached dev v (s.toFront i) := by
  refine h.of_same (Kern.same_toFront hi) (fun b' j hj => ?_) fun b' hb' => ?_
  · rw [← h.data b' j hj]
    unfold Kern.toFront
    split <;> rfl
  · rw [Kern.disk_toFront] at hb'
    rw [Kern.refs_toFront]
    exact h.dirty b' hb'

theorem Cached.release (hi : s.Has dev b i)
    (hx : v b = s.disk b ∨ 0 < s.refs i + -1) : Cached dev v ((s.addRef i (-1)).toFront i) :=
  (h.addRef hi hx).toFront hi.1.1

end

theorem Kern.same_release (hi : i ∈ s.order) : s.Same ((s.addRef i (-1)).toFront i) :=
  (s.same_addRef i (-1)).trans (Kern.same_toFront hi)

theorem Kern.image_toFront (s : Kern) (i : Nat) : (s.toFront i).image = s.image := by
  unfold Kern.toFront
  split <;> rfl

theorem Kern.writes_toFront (s : Kern) (i : Nat) : (s.toFront i).writes = s.writes := by
  unfold Kern.toFront
  split <;> rfl

/-! ### Blocks that are read and released -/

/-- Between `s` and `s'` blocks were fetched, into buffers that were not below zero. -/
structure Kern.Traffic (dev : UInt32) (s s' : Kern) : Prop where
  order : s'.order.Perm s.order
  log : s'.log = s.log
  keeps : ∀ b j, s.Has dev b j → s.refs j ≠ 0 → s'.Has dev b j
  named : ∀ b j, s'.Named dev b j → s.Named dev b j ∨ 0 ≤ s.refs j

theorem Kern.Traffic.same {s'' : Kern} (h : s.Traffic dev s') (h' : s'.Same s'') : s.Traffic dev s'' :=
  ⟨h'.order.trans h.order, h'.log.trans h.log, fun b j hj h0 => h'.has.mpr (h.keeps b j hj h0),
    fun b j hj => h.named b j (h'.named.mp hj)⟩

theorem Kern.Fetched.traffic (h : s.Fetched dev b i s') (hnn : 0 ≤ s.refs i) : s.Traffic dev s' := by
  refine ⟨by rw [h.order], h.log, fun b' j hj h0 => h.keeps h0 hj, fun b' j hj => ?_⟩
  by_cases hji : j = i
  · exact .inr (hji ▸ hnn)
  · refine .inl ?_
    unfold Kern.Named at hj ⊢
    rwa [h.other j hji, h.order] at hj

theorem Kern.Fetched.clean_or (hf : s.Fetched dev b i s') (h : Cached dev v s) (h' : Cached dev v s') :
    v b = s.disk b ∨ 0 < s.refs i := by
  by_cases hb : v b = s.disk b
  · exact .inl hb
  · obtain ⟨j, hj, hpos⟩ := h.dirty b hb
    have hj' := hf.keeps (by omega) hj
    exact .inr (h'.one b j i hj'.1 hf.has.1 ▸ hpos)

/-- Blocks `a` and `b` have been fetched. -/
structure Kern.Fetched₂ (s : Kern) (dev : UInt32) (v : UInt32 → Block) (a b : UInt32) (i j : Nat)
    (s' : Kern) : Prop extends s.Traffic dev s' where
  ne : i ≠ j
  fst : s'.Has dev a i
  snd : s'.Has dev b j
  refs : s'.refs = update (update s.refs i (s.refs i + 1)) j (s.refs j + 1)
  nonneg : 0 ≤ s.refs i ∧ 0 ≤ s.refs j
  clean : (v a = s.disk a ∨ 0 < s.refs i) ∧ (v b = s.disk b ∨ 0 < s.refs j)
  disk : s'.disk = s.disk

/-- Some buffer is unused, and block `b` is in one that is in use; or two buffers are unused. -/
def Kern.RoomFor (s : Kern) (dev b : UInt32) : Prop :=
  ((∃ i ∈ s.order, s.refs i = 0) ∧ ∃ i, s.Has dev b i ∧ 0 < s.refs i) ∨
    ∃ l : List Nat, l.length + 1 < s.order.length ∧ ∀ i ∈ s.order, s.refs i ≠ 0 → i ∈ l

theorem Cached.exists_unused (h : Cached dev v s) {l : List Nat} (hlen : l.length < s.order.length)
    (hcov : ∀ i ∈ s.order, s.refs i ≠ 0 → i ∈ l) : ∃ i ∈ s.order, s.refs i = 0 := by
  by_contra hno
  have hsub : s.order ⊆ l := fun i hi => hcov i hi fun h0 => hno ⟨i, hi, h0⟩
  have := (List.Nodup.subperm h.nodup hsub).length_le
  omega

theorem breads_emits {β : Type} {a : UInt32} {f : Nat → Nat → K β} {ws : List (UInt32 × Block)}
    {Q : β → Kern → Prop} (h : Cached dev v s) (hab : a ≠ b)
    (hroom : ¬ may → s.RoomFor dev b) (hna : ∀ i, s.Named dev a i → 0 ≤ s.refs i)
    (hnb : ∀ i, s.Named dev b i → 0 ≤ s.refs i) (hf : ∀ i j s', s.Fetched₂ dev v a b i j s' → Cached dev v s' →
      Emits Kern.image Kern.writes may (f i j) s' ws Q) :
    Emits Kern.image Kern.writes may (do
      let i ← bread dev a
      let j ← bread dev b
      f i j) s ws Q := by
  have hfree : ¬ may → ∃ i ∈ s.order, s.refs i = 0 := by
    intro hm
    rcases hroom hm with ⟨hu, -⟩ | ⟨l, hlen, hcov⟩
    · exact hu
    · exact h.exists_unused (by omega) hcov
  refine (bread_emits h (fun hm => .inr (hfree hm)) hna).seq fun i s1 ⟨hf1, h1, hi⟩ => ?_
  have htr1 := hf1.traffic hi
  have hrefs1 : ∀ j, j ≠ i → s1.refs j = s.refs j := by
    intro j hj
    rw [hf1.refs, update_of_ne hj]
  have hrefi : s1.refs i = s.refs i + 1 := by rw [hf1.refs, update_self]
  -- the second block is not in the first buffer
  have hnei : ∀ j, s1.Named dev b j → j ≠ i := by
    rintro j hj rfl
    exact hab (hf1.has.1.2.2.symm.trans hj.2.2)
  have hnb1 : ∀ j, s1.Named dev b j → 0 ≤ s1.refs j := by
    intro j hj
    rw [hrefs1 j (hnei j hj)]
    rcases htr1.named b j hj with hn | h0
    · exact hnb j hn
    · exact h0
  have hfree1 : ¬ may → (∃ j, s1.Named dev b j) ∨ ∃ j ∈ s1.order, s1.refs j = 0 := by
    intro hm
    rcases hroom hm with ⟨-, j, hj, hpos⟩ | ⟨l, hlen, hcov⟩
    · exact .inl ⟨j, (htr1.keeps b j hj (by omega)).1⟩
    · refine .inr (h1.exists_unused (l := i :: l) (by rw [hf1.order]; simpa using hlen) ?_)
      intro j hj h0
      by_cases hji : j = i
      · exact hji ▸ mem_cons_self
      · rw [hf1.order] at hj
        rw [hrefs1 j hji] at h0
        exact mem_cons_of_mem i (hcov j hj h0)
  refine (bread_emits h1 hfree1 hnb1).seq fun j s2 ⟨hf2, h2, hj⟩ => ?_
  have hij : j ≠ i := by
    rintro rfl
    rcases hf2.was with hn | h0
    · exact hnei j hn rfl
    · omega
  have htr2 := hf2.traffic hj
  rw [hrefs1 j hij] at hj
  refine hf i j s2 ⟨⟨?_, ?_, ?_, ?_⟩, Ne.symm hij, ?_, hf2.has, ?_, ⟨hi, hj⟩, ⟨?_, ?_⟩, ?_⟩ h2
  · rw [hf2.order, hf1.order]
  · rw [hf2.log, hf1.log]
  · intro b' x hx h0
    refine htr2.keeps b' x (htr1.keeps b' x hx h0) ?_
    by_cases hxi : x = i
    · subst hxi
      omega
    · rw [hrefs1 x hxi]
      exact h0
  · intro b' x hx
    rcases htr2.named b' x hx with hn | h0
    · exact htr1.named b' x hn
    · by_cases hxi : x = i
      · exact .inr (hxi ▸ hi)
      · rw [hrefs1 x hxi] at h0
        exact .inr h0
  · exact hf2.keeps (by omega) hf1.has
  · rw [hf2.refs, hf1.refs, update_of_ne hij]
  · exact hf1.clean_or h h1
  · have hc := hf2.clean_or h1 h2
    rwa [hf1.disk, hrefs1 j hij] at hc
  · rw [hf2.disk, hf1.disk]

end

end InternetOs.Fs
