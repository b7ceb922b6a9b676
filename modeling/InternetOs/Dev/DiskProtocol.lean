import InternetOs.Dev.VirtioDisk
import InternetOs.Lib.CircularBuffer

/-!
# The protocol between driver and device

The requests in flight are in one of four phases: available (`A`), taken by the device (`F`), completed (`U`), noticed
by the driver (`N`).  Each owns three of the eight descriptors, so there are at most two, and neither ring can run over:
comparing `used_idx` with the index of the device modulo 8 tells how many completions are still to be noticed.

    in every run descriptors have one owner, completions are noticed once and in order,
    `b->disk` is cleared after the completion, and `free_desc` does not panic             (diskProtocol)
-/

namespace InternetOs.Dev

open Circular Function List Option DiskSys

/-! ## Descriptors -/

section
variable {d : Disk} {i i0 i1 i2 b : Nat}

/-- The disk without the descriptors in `l`. -/
def Disk.take (d : Disk) (l : List Nat) : Disk := { d with free := fun i => d.free i && decide (i ∉ l) }

theorem Disk.take_nil (d : Disk) : d.take [] = d := by simp [Disk.take]

theorem allocDesc_some {d' : Disk} {l : List Nat} (h : allocDesc (d.take l) = some (i, d')) :
    i < numDesc ∧ d.free i = true ∧ i ∉ l ∧ d' = d.take (l ++ [i]) := by
  obtain ⟨j, hj, heq⟩ := map_eq_some_iff.mp h
  obtain ⟨rfl, rfl⟩ := Prod.mk.inj heq
  have hfree : (d.take l).free j = true := find?_some hj
  change (d.free j && decide (j ∉ l)) = true at hfree
  rw [Bool.and_eq_true, decide_eq_true_eq] at hfree
  refine ⟨mem_range.mp (mem_of_find?_eq_some hj), hfree.1, hfree.2, ?_⟩
  unfold Disk.take
  congr 1
  funext x
  by_cases hx : x = j
  · subst hx
    simp
  · simp [hx]

/-- A descriptor is given back. -/
def Disk.freed (d : Disk) (i : Nat) : Disk :=
  { d with desc := update d.desc i { d.desc i with addr := .zero }, free := update d.free i true }

theorem freeDesc_ok (hi : i < numDesc) (hf : d.free i = false) : freeDesc d i = .ok (d.freed i) := by
  unfold freeDesc
  rw [if_neg (not_le.mpr hi), if_neg (by simp [hf])]
  rfl

/-- An allocation that was given up: descriptors that are free may have lost their address. -/
structure Disk.GivenUp (d d' : Disk) : Prop where
  desc : ∀ i, d.free i = false → d'.desc i = d.desc i
  rest : d' = { d with desc := d'.desc }

theorem giveUp (l : List Nat) (hnd : l.Nodup) (hl : ∀ i ∈ l, i < numDesc ∧ d.free i = true) (desc : Nat → VRingDesc) :
    ∃ desc', l.foldlM freeDesc { d.take l with desc := desc } = .ok { d with desc := desc' } ∧
      ∀ i, i ∉ l → desc' i = desc i := by
  induction l generalizing desc with
  | nil => exact ⟨desc, by rw [Disk.take_nil]; rfl, fun _ _ => rfl⟩
  | cons i l ih =>
    obtain ⟨hil, hnd⟩ := nodup_cons.mp hnd
    obtain ⟨hi, hf⟩ := hl i mem_cons_self
    obtain ⟨desc', hfold, hsame⟩ := ih hnd (fun j hj => hl j (mem_cons_of_mem i hj))
      (update desc i { desc i with addr := .zero })
    have hfree : update (d.take (i :: l)).free i true = (d.take l).free := by
      funext j
      by_cases hj : j = i
      · subst hj
        simp [Disk.take, hf, hil]
      · simp [Disk.take, hj]
    refine ⟨desc', ?_, fun j hj => ?_⟩
    · rw [foldlM_cons, freeDesc_ok hi (by simp [Disk.take])]
      show l.foldlM freeDesc { d.take (i :: l) with desc := _, free := update (d.take (i :: l)).free i true } = _
      rw [hfree]
      exact hfold
    · rw [mem_cons, not_or] at hj
      rw [hsame j hj.2, update_of_ne hj.1]

/-- `alloc3_desc` takes three descriptors that were free, or leaves all as they were. -/
theorem allocLoop_spec (k : Nat) {idx : List Nat} (hnd : idx.Nodup) (hidx : ∀ i ∈ idx, i < numDesc ∧ d.free i = true) :
    ∃ d' r, allocLoop k idx (d.take idx) = .ok (d', r) ∧ ((r = none ∧ d.GivenUp d') ∨ ∃ l, r = some l ∧
      l.length = idx.length + k ∧ l.Nodup ∧ (∀ i ∈ l, i < numDesc ∧ d.free i = true) ∧ d' = d.take l) := by
  induction k generalizing idx with
  | zero => exact ⟨_, _, rfl, .inr ⟨idx, rfl, rfl, hnd, hidx, rfl⟩⟩
  | succ k ih =>
    unfold allocLoop
    cases ha : allocDesc (d.take idx) with
    | none =>
      obtain ⟨desc', hfold, hsame⟩ := giveUp idx hnd hidx (d.take idx).desc
      refine ⟨{ d with desc := desc' }, none, ?_, .inl ⟨rfl, fun i hi => hsame i fun hmem => ?_, rfl⟩⟩
      · rw [show List.foldlM freeDesc (d.take idx) idx = .ok { d with desc := desc' } from hfold]
        rfl
      · exact Bool.noConfusion (hi.symm.trans (hidx i hmem).2)
    | some x =>
      obtain ⟨i, d'⟩ := x
      obtain ⟨hi, hf, hmem, rfl⟩ := allocDesc_some ha
      have hnd' : (idx ++ [i]).Nodup := concat_eq_append ▸ .concat hmem hnd
      have hidx' : ∀ j ∈ idx ++ [i], j < numDesc ∧ d.free j = true := by
        intro j hj
        rcases mem_append.mp hj with hj | hj
        · exact hidx j hj
        · rw [List.mem_singleton.mp hj]
          exact ⟨hi, hf⟩
      obtain ⟨d', r, hloop, hr⟩ := ih hnd' hidx'
      refine ⟨d', r, hloop, hr.imp_right fun ⟨l, hl, hlen, hrest⟩ => ⟨l, hl, ?_, hrest⟩⟩
      rw [hlen, length_append, length_singleton]
      omega

theorem alloc3Desc_spec (d : Disk) : ∃ d' r, alloc3Desc d = .ok (d', r) ∧ ((r = none ∧ d.GivenUp d') ∨
    ∃ i0 i1 i2, r = some [i0, i1, i2] ∧ [i0, i1, i2].Nodup ∧
      (∀ i ∈ [i0, i1, i2], i < numDesc ∧ d.free i = true) ∧ d' = d.take [i0, i1, i2]) := by
  obtain ⟨d', r, hloop, hr⟩ := allocLoop_spec (d := d) 3 nodup_nil (by simp)
  rw [Disk.take_nil] at hloop
  refine ⟨d', r, hloop, hr.imp_right fun ⟨l, hl, hlen, hrest⟩ => ?_⟩
  obtain ⟨i0, i1, i2, rfl⟩ := length_eq_three.mp hlen
  exact ⟨i0, i1, i2, hl, hrest⟩

/-! ## Chains -/

/-- The descriptors of a request are linked, the last one points to the status, and `info` names the buffer. -/
structure Req.Formatted (r : Req) (d : Disk) : Prop where
  link0 : (d.desc r.i0).flags &&& vringDescFNext ≠ 0 ∧ (d.desc r.i0).next = r.i1
  link1 : (d.desc r.i1).flags &&& vringDescFNext ≠ 0 ∧ (d.desc r.i1).next = r.i2
  last : (d.desc r.i2).flags &&& vringDescFNext = 0 ∧ (d.desc r.i2).addr = .status r.i0
  info : d.infoB r.i0 = r.b

theorem Req.Formatted.congr {r : Req} {d' : Disk} (h : r.Formatted d) (hd : ∀ i ∈ r.descs, d'.desc i = d.desc i)
    (hb : d'.infoB r.i0 = d.infoB r.i0) : r.Formatted d' := by
  have h0 := hd r.i0 (by simp [Req.descs])
  have h1 := hd r.i1 (by simp [Req.descs])
  have h2 := hd r.i2 (by simp [Req.descs])
  refine ⟨?_, ?_, ?_, hb.trans h.info⟩
  · rw [h0]
    exact h.link0
  · rw [h1]
    exact h.link1
  · rw [h2]
    exact h.last

theorem Req.Formatted.lastDesc {r : Req} (h : r.Formatted d) : lastDesc d.desc numDesc r.i0 = r.i2 := by
  show Dev.lastDesc d.desc (5 + 1 + 1 + 1) r.i0 = r.i2
  rw [Dev.lastDesc, if_pos h.link0.1, h.link0.2, Dev.lastDesc, if_pos h.link1.1, h.link1.2, Dev.lastDesc,
    if_neg (not_not.mpr h.last.1)]

theorem submit_formatted (write : Bool) (num : Nat) (hnd : [i0, i1, i2].Nodup) :
    Req.Formatted ⟨b, i0, i1, i2, num⟩ (submit d b write i0 i1 i2) := by
  simp only [nodup_cons, mem_cons, not_mem_nil, or_false, not_or] at hnd
  obtain ⟨⟨h01, h02⟩, h12, -⟩ := hnd
  have hflags : ((if write then (0 : UInt16) else vringDescFWrite) ||| vringDescFNext) &&& vringDescFNext ≠ 0 := by
    cases write <;> decide
  refine ⟨?_, ?_, ?_, ?_⟩
  · simp only [submit, update_of_ne h02, update_of_ne h01, update_self]
    exact ⟨by decide, trivial⟩
  · simp only [submit, update_of_ne h12, update_self]
    exact ⟨hflags, trivial⟩
  · simp only [submit, update_self]
    exact ⟨by decide, trivial⟩
  · simp only [submit, update_self]

theorem freeChain_succ (fuel : Nat) (hi : i < numDesc) (hf : d.free i = false) : freeChain (fuel + 1) d i =
    if (d.desc i).flags &&& vringDescFNext ≠ 0 then freeChain fuel (d.freed i) (d.desc i).next
    else .ok (d.freed i) := by
  have hdesc : (d.freed i).desc i = { d.desc i with addr := .zero } := update_self ..
  rw [freeChain, freeDesc_ok hi hf]
  show (if ((d.freed i).desc i).flags &&& vringDescFNext ≠ 0 then _ else _) = _
  rw [hdesc]
  rfl

theorem freeChain_ok {r : Req} (h : r.Formatted d) (hnd : r.descs.Nodup)
    (hown : ∀ i ∈ r.descs, i < numDesc ∧ d.free i = false) (infoB : Nat → Nat) :
    freeChain (numDesc + 1) { d with infoB := infoB } r.i0 =
      .ok ((({ d with infoB := infoB }.freed r.i0).freed r.i1).freed r.i2) := by
  obtain ⟨⟨hf0, hn0⟩, ⟨hf1, hn1⟩, ⟨hf2, -⟩, -⟩ := h
  have ho0 := hown r.i0 (by simp [Req.descs])
  have ho1 := hown r.i1 (by simp [Req.descs])
  have ho2 := hown r.i2 (by simp [Req.descs])
  simp only [Req.descs, nodup_cons, mem_cons, not_mem_nil, or_false, not_or] at hnd
  obtain ⟨⟨h01, h02⟩, h12, -⟩ := hnd
  have hd1 : ({ d with infoB := infoB }.freed r.i0).desc r.i1 = d.desc r.i1 := update_of_ne (Ne.symm h01) ..
  have hd2 : (({ d with infoB := infoB }.freed r.i0).freed r.i1).desc r.i2 = d.desc r.i2 :=
    (update_of_ne (Ne.symm h12) ..).trans (update_of_ne (Ne.symm h02) ..)
  have hfr1 : ({ d with infoB := infoB }.freed r.i0).free r.i1 = false :=
    (update_of_ne (Ne.symm h01) ..).trans ho1.2
  have hfr2 : (({ d with infoB := infoB }.freed r.i0).freed r.i1).free r.i2 = false :=
    (update_of_ne (Ne.symm h12) ..).trans ((update_of_ne (Ne.symm h02) ..).trans ho2.2)
  rw [freeChain_succ numDesc ho0.1 (by exact ho0.2), if_pos hf0, show VRingDesc.next _ = r.i1 from hn0]
  show freeChain (6 + 1 + 1) _ _ = _
  rw [freeChain_succ _ ho1.1 hfr1, hd1, if_pos hf1, hn1, freeChain_succ _ ho2.1 hfr2, hd2, if_neg (not_not.mpr hf2)]

theorem freed3_desc {r : Req} (hi : i ∉ r.descs) : (((d.freed r.i0).freed r.i1).freed r.i2).desc i = d.desc i := by
  simp only [Req.descs, mem_cons, not_mem_nil, or_false, not_or] at hi
  obtain ⟨h0, h1, h2⟩ := hi
  simp only [Disk.freed, update_of_ne h0, update_of_ne h1, update_of_ne h2]

theorem freed3_free {r : Req} : (((d.freed r.i0).freed r.i1).freed r.i2).free i = false ↔
    i ∉ r.descs ∧ d.free i = false := by
  simp only [Req.descs, Disk.freed, update_apply]
  by_cases h0 : i = r.i0
  · simp [h0]
  by_cases h1 : i = r.i1
  · simp [h1]
  by_cases h2 : i = r.i2
  · simp [h2]
  · simp [h0, h1]

end

/-! ## Owners -/

/-- The descriptors of the requests in flight, each given with its process. -/
def descsOf (L : List (Nat × Req)) : List Nat := L.flatMap fun x => x.2.descs

theorem descsOf_cons (x : Nat × Req) (L : List (Nat × Req)) : descsOf (x :: L) = x.2.descs ++ descsOf L := rfl

theorem mem_descsOf {x : Nat × Req} {L : List (Nat × Req)} {i : Nat} (hx : x ∈ L) (hi : i ∈ x.2.descs) :
    i ∈ descsOf L := mem_flatMap.mpr ⟨x, hx, hi⟩

/-- The requests in flight are `L`; every descriptor that is not free belongs to one of them. -/
structure DiskSys.Owns (s : DiskSys) (L : List (Nat × Req)) : Prop where
  places : ∀ p r, s.place p = .waitDone r ↔ (p, r) ∈ L
  nodup : (descsOf L).Nodup
  free : ∀ i, i ∈ descsOf L ↔ i < numDesc ∧ s.disk.free i = false
  formatted : ∀ x ∈ L, x.2.Formatted s.disk ∧ s.numAt x.2.i0 = x.2.num
  bufs : ∀ p q b, (s.place p).buf = some b → (s.place q).buf = some b → p = q
  busy : ∀ p b, (s.place p).buf = some b → b ≠ 0 ∧ s.busy b = true

section
variable {s : DiskSys} {L : List (Nat × Req)} {x y : Nat × Req}

theorem head_mem (r : Req) : r.i0 ∈ r.descs := mem_cons_self

section
variable (h : s.Owns L)
include h

/-- Two requests in flight are enough to use up the descriptors. -/
theorem DiskSys.Owns.length_le : L.length ≤ 2 := by
  have hlen : (descsOf L).length = L.length * 3 := by
    simp [descsOf, Req.descs]
  have hsub : descsOf L ⊆ List.range numDesc := fun i hi => mem_range.mpr ((h.free i).mp hi).1
  have hle := (h.nodup.subperm hsub).length_le
  rw [hlen] at hle
  change L.length * 3 ≤ 8 at hle
  omega

theorem DiskSys.Owns.nodup_self : L.Nodup := by
  refine (nodup_flatMap.mp h.nodup).2.imp fun {a b} hdisj heq => ?_
  subst heq
  exact hdisj (head_mem a.2) (head_mem a.2)

theorem DiskSys.Owns.apart (hx : x ∈ L) (hy : y ∈ L) (hne : x ≠ y) : List.Disjoint x.2.descs y.2.descs := by
  have hsymm : Std.Symm (onFun List.Disjoint fun x : Nat × Req => x.2.descs) :=
    ⟨fun _ _ hd => List.Disjoint.symm hd⟩
  exact (nodup_flatMap.mp h.nodup).2.forall hx hy hne

theorem DiskSys.Owns.place (hx : x ∈ L) : s.place x.1 = .waitDone x.2 := (h.places x.1 x.2).mpr hx

theorem DiskSys.Owns.buf (hx : x ∈ L) : (s.place x.1).buf = some x.2.b := by
  rw [h.place hx]
  rfl

theorem DiskSys.Owns.eq_of_proc (hx : x ∈ L) (hy : y ∈ L) (hp : x.1 = y.1) : x = y := by
  have heq := (h.place hx).symm.trans (hp ▸ h.place hy)
  exact Prod.ext hp (RwPlace.waitDone.inj heq)

theorem DiskSys.Owns.eq_of_buf (hx : x ∈ L) (hy : y ∈ L) (hb : x.2.b = y.2.b) : x = y :=
  h.eq_of_proc hx hy (h.bufs x.1 y.1 x.2.b (h.buf hx) (by rw [hb]; exact h.buf hy))

theorem DiskSys.Owns.not_free (hx : x ∈ L) {i : Nat} (hi : i ∈ x.2.descs) :
    i < numDesc ∧ s.disk.free i = false := (h.free i).mp (mem_descsOf hx hi)

end

end

/-! ## Phases -/

/-- The requests in flight are available (`A`), taken by the device (`F`), completed (`U`) or noticed (`N`). -/
structure DiskSys.Phases (s : DiskSys) (L A F U N : List (Nat × Req)) : Prop where
  perm : L.Perm (A ++ (F ++ (U ++ N)))
  waits : ∀ x ∈ A ++ (F ++ U), s.bufDisk x.2.b = true
  done : ∀ x ∈ N, s.bufDisk x.2.b = false ∧ x.2.num ∈ s.noticed
  avail : s.disk.availIdx = s.lastAvail + UInt16.ofNat A.length
  ring : cells numDesc s.disk.availRing s.lastAvail.toNat A.length = A.map (·.2.i0)
  inflight : s.inflight = F.map fun x => ⟨x.2.i0, some x.2.i0, x.2.num⟩
  usedIdx : s.disk.usedIdx < numDesc
  used : s.disk.usedId.toNat % numDesc = (s.disk.usedIdx + U.length) % numDesc
  elems : cells numDesc s.disk.usedElems s.disk.usedIdx U.length = U.map (·.2.i0)
  completed : s.completed = s.noticed ++ U.map (·.2.num)
  nums : (s.completed ++ (A ++ F).map (·.2.num)).Nodup
  fresh : ∀ k ∈ s.completed ++ (A ++ F).map (·.2.num), k < s.count

/-- The invariant of the protocol. -/
def DiskSys.Inv (s : DiskSys) : Prop := ∃ L A F U N, s.Owns L ∧ s.Phases L A F U N

section
variable {s : DiskSys} {L A F U N : List (Nat × Req)} {x : Nat × Req}

theorem DiskSys.Phases.length (h : s.Phases L A F U N) :
    L.length = A.length + (F.length + (U.length + N.length)) := by
  rw [h.perm.length_eq, length_append, length_append, length_append]

theorem succ_toNat_mod (c : UInt16) : (c + 1).toNat % numDesc = (c.toNat + 1) % numDesc := by
  exact Nat.mod_mod_of_dvd _ (by decide)

theorem DiskSys.Phases.consume (ho : s.Owns L) (h : s.Phases L A F U N) (hne : s.lastAvail ≠ s.disk.availIdx) :
    s.consume.Inv := by
  cases A with
  | nil => exact absurd (by rw [h.avail]; exact (UInt16.add_zero _).symm) hne
  | cons x A =>
    have hmem : x ∈ L := h.perm.mem_iff.mpr (by simp)
    have hring := h.ring
    rw [length_cons, cells_cons] at hring
    obtain ⟨hid, htail⟩ := List.cons.inj hring
    obtain ⟨hfmt, hnum⟩ := ho.formatted x hmem
    refine ⟨L, A, F ++ [x], U, N, ⟨ho.places, ho.nodup, ho.free, ho.formatted, ho.bufs, ho.busy⟩, ?_⟩
    have hperm : (x :: A ++ F).Perm (A ++ (F ++ [x])) := by
      rw [← append_assoc]
      exact (perm_append_singleton x (A ++ F)).symm
    refine ⟨?_, fun y hy => h.waits y ?_, h.done, ?_, ?_, ?_, h.usedIdx, h.used, h.elems, h.completed, ?_, ?_⟩
    · refine h.perm.trans (perm_iff_count.mpr fun y => ?_)
      simp only [count_append, count_cons, count_nil]
      omega
    · simp only [mem_append, mem_cons] at hy ⊢
      tauto
    · show s.disk.availIdx = s.lastAvail + 1 + UInt16.ofNat A.length
      rw [h.avail, length_cons, UInt16.ofNat_add, UInt16.add_assoc, UInt16.add_comm 1]
      rfl
    · rw [← htail]
      exact cells_congr (succ_toNat_mod s.lastAvail)
    · show s.inflight ++ [_] = _
      rw [h.inflight, map_append, hid, hfmt.lastDesc, hfmt.last.2, hnum]
      rfl
    · exact ((hperm.map _).append_left _).nodup_iff.mp h.nums
    · exact fun k hk => h.fresh k (((hperm.map _).append_left _).mem_iff.mpr hk)

theorem DiskSys.Phases.complete (ho : s.Owns L) (h : s.Phases L A F U N) {k : Nat} {f : Flight} (status : UInt8)
    (hk : s.inflight[k]? = some f) : (s.complete k f status).Inv := by
  rw [h.inflight, getElem?_map] at hk
  obtain ⟨x, hx, rfl⟩ := map_eq_some_iff.mp hk
  obtain ⟨hlt, rfl⟩ := List.getElem?_eq_some_iff.mp hx
  have hF : F.Perm (F[k] :: F.eraseIdx k) := (getElem_cons_eraseIdx_perm hlt).symm
  have hlen := h.length
  have hU : U.length < numDesc := by
    have := ho.length_le
    show _ < 8
    omega
  generalize F[k] = x at hF
  have hnums : (s.completed ++ (A ++ F).map (·.2.num)).Perm
      (s.completed ++ [x.2.num] ++ (A ++ F.eraseIdx k).map (·.2.num)) := by
    rw [append_assoc]
    exact (((hF.append_left A).trans perm_middle).map _).append_left _
  refine ⟨L, A, F.eraseIdx k, U ++ [x], N, ⟨ho.places, ho.nodup, ho.free, fun y hy => ?_, ho.bufs, ho.busy⟩, ?_⟩
  · exact ⟨(ho.formatted y hy).1.congr (fun _ _ => rfl) rfl, (ho.formatted y hy).2⟩
  refine ⟨?_, fun y hy => h.waits y ?_, h.done, h.avail, h.ring, ?_, h.usedIdx, ?_, ?_, ?_, ?_, ?_⟩
  · refine h.perm.trans (perm_iff_count.mpr fun y => ?_)
    have hcount := hF.count_eq y
    simp only [count_append, count_cons, count_nil] at hcount ⊢
    omega
  · have := hF.mem_iff (a := y)
    simp only [mem_append, mem_cons] at hy this ⊢
    tauto
  · show s.inflight.eraseIdx k = _
    rw [h.inflight, eraseIdx_map]
  · show (s.disk.usedId + 1).toNat % numDesc = (s.disk.usedIdx + _) % numDesc
    rw [succ_toNat_mod, Nat.add_mod, h.used, ← Nat.add_mod, length_append, length_singleton, add_assoc]
  · show cells numDesc (update s.disk.usedElems (s.disk.usedId.toNat % numDesc) x.2.i0) s.disk.usedIdx _ = _
    rw [length_append, length_singleton, h.used, cells_push hU, h.elems, map_append, map_singleton]
  · show s.completed ++ [x.2.num] = s.noticed ++ _
    rw [h.completed, map_append, map_singleton, append_assoc]
  · exact hnums.nodup_iff.mp h.nums
  · exact fun n hn => h.fresh n (hnums.mem_iff.mpr hn)

theorem DiskSys.Phases.intr (ho : s.Owns L) (h : s.Phases L A F U N) (hp : s.disk.pending) :
    s.intr = .error .status ∧ s.disk.infoStatus (s.disk.usedElems s.disk.usedIdx) ≠ 0 ∨
      ∃ s', s.intr = .ok s' ∧ s'.Inv := by
  cases U with
  | nil => exact absurd h.used.symm hp
  | cons x U =>
    have hmem : x ∈ L := h.perm.mem_iff.mpr (by simp)
    have helems := h.elems
    rw [length_cons, cells_cons, Nat.mod_eq_of_lt h.usedIdx] at helems
    obtain ⟨hid, htail⟩ := List.cons.inj helems
    obtain ⟨hfmt, hnum⟩ := ho.formatted x hmem
    have hb := (ho.busy x.1 x.2.b (ho.buf hmem)).1
    unfold intr
    dsimp only
    rw [hid, hfmt.info, hnum]
    by_cases hst : s.disk.infoStatus x.2.i0 = 0
    · right
      rw [if_neg (not_not.mpr hst), if_neg hb]
      have hperm : (A ++ (F ++ (x :: U ++ N))).Perm (x :: (A ++ (F ++ (U ++ N)))) := by
        refine perm_iff_count.mpr fun y => ?_
        simp only [count_append, count_cons]
        omega
      have hx : x ∉ A ++ (F ++ (U ++ N)) :=
        (nodup_cons.mp ((h.perm.trans hperm).nodup_iff.mp ho.nodup_self)).1
      have hin : ∀ y ∈ A ++ (F ++ (U ++ N)), y ∈ L := fun y hy =>
        (h.perm.trans hperm).mem_iff.mpr (mem_cons_of_mem x hy)
      have hother : ∀ y ∈ L, y ≠ x → y.2.b ≠ x.2.b := fun y hy hne heq => hne (ho.eq_of_buf hy hmem heq)
      refine ⟨_, rfl, L, A, F, U, N ++ [x], ⟨ho.places, ho.nodup, ho.free, fun y hy => ?_, ho.bufs, ho.busy⟩, ?_⟩
      · exact ⟨(ho.formatted y hy).1.congr (fun _ _ => rfl) rfl, (ho.formatted y hy).2⟩
      refine ⟨?_, fun y hy => ?_, fun y hy => ?_, h.avail, h.ring, h.inflight, ?_, ?_, ?_, ?_, h.nums, h.fresh⟩
      · refine h.perm.trans (perm_iff_count.mpr fun y => ?_)
        simp only [count_append, count_cons, count_nil]
        omega
      · have hy' : y ∈ A ++ (F ++ (U ++ N)) := by
          simp only [mem_append] at hy ⊢
          tauto
        have hne : y ≠ x := fun heq => hx (heq ▸ hy')
        refine (update_of_ne (hother y (hin y hy') hne) _ _).trans (h.waits y ?_)
        simp only [mem_append] at hy ⊢
        tauto
      · rcases mem_append.mp hy with hy | hy
        · have hy' : y ∈ A ++ (F ++ (U ++ N)) := by
            simp only [mem_append]
            tauto
          have hne : y ≠ x := fun heq => hx (heq ▸ hy')
          exact ⟨(update_of_ne (hother y (hin y hy') hne) _ _).trans (h.done y hy).1,
            mem_append_left _ (h.done y hy).2⟩
        · rw [List.mem_singleton.mp hy]
          exact ⟨update_self .., mem_append_right _ (mem_singleton_self _)⟩
      · exact Nat.mod_lt _ (by decide)
      · show s.disk.usedId.toNat % numDesc = ((s.disk.usedIdx + 1) % numDesc + U.length) % numDesc
        rw [h.used, length_cons, Nat.mod_add_mod, add_assoc, add_comm U.length]
      · rw [← htail]
        exact cells_congr (Nat.mod_mod _ _)
      · show s.completed = s.noticed ++ [x.2.num] ++ _
        rw [h.completed, map_cons, append_assoc, singleton_append]
    · left
      rw [if_pos hst]
      exact ⟨rfl, hst⟩

end

/-! ## The calls -/

section
variable {s : DiskSys} {L A F U N : List (Nat × Req)} {p b : Nat}

/-- The place of one process changes; its buffer is in no other call. -/
theorem bufs_update {place : Nat → RwPlace} {pl : RwPlace}
    (h : ∀ p q b, (place p).buf = some b → (place q).buf = some b → p = q)
    (hpl : ∀ q b, q ≠ p → pl.buf = some b → (place q).buf ≠ some b) (q q' b : Nat)
    (hq : (update place p pl q).buf = some b) (hq' : (update place p pl q').buf = some b) : q = q' := by
  by_cases h1 : q = p
  · subst h1
    by_cases h2 : q' = q
    · exact h2.symm
    · rw [update_self] at hq
      rw [update_of_ne h2] at hq'
      exact absurd hq' (hpl q' b h2 hq)
  · rw [update_of_ne h1] at hq
    by_cases h2 : q' = p
    · subst h2
      rw [update_self] at hq'
      exact absurd hq (hpl q b h1 hq')
    · rw [update_of_ne h2] at hq'
      exact h q q' b hq hq'

theorem submit_desc {d : Disk} {write : Bool} {i i0 i1 i2 : Nat} (hi : i ∉ [i0, i1, i2]) :
    (submit d b write i0 i1 i2).desc i = d.desc i := by
  simp only [mem_cons, not_mem_nil, or_false, not_or] at hi
  obtain ⟨h0, h1, h2⟩ := hi
  simp only [submit, update_of_ne h0, update_of_ne h1, update_of_ne h2]

/-- A process with the buffer `b`, which no other has, is about to take descriptors. -/
structure DiskSys.Asks (s : DiskSys) (p b : Nat) : Prop where
  place : ∀ r, s.place p ≠ .waitDone r
  buf : b ≠ 0
  busy : s.busy b = true
  other : ∀ q, q ≠ p → (s.place q).buf ≠ some b

theorem DiskSys.Owns.not_mem (h : s.Owns L) (ha : s.Asks p b) (r : Req) : (p, r) ∉ L := fun hr =>
  ha.place r ((h.places p r).mpr hr)

theorem DiskSys.Owns.busy_update (h : s.Owns L) (ha : s.Asks p b) {pl : RwPlace} (hpl : pl.buf = some b) (q c : Nat)
    (hq : (update s.place p pl q).buf = some c) : c ≠ 0 ∧ s.busy c = true := by
  by_cases hqp : q = p
  · subst hqp
    rw [update_self, hpl] at hq
    cases hq
    exact ⟨ha.buf, ha.busy⟩
  · rw [update_of_ne hqp] at hq
    exact h.busy q c hq

theorem DiskSys.Owns.submit (h : s.Owns L) (ha : s.Asks p b) {i0 i1 i2 : Nat} (write : Bool)
    (hnd : [i0, i1, i2].Nodup) (hfree : ∀ i ∈ [i0, i1, i2], i < numDesc ∧ s.disk.free i = true)
    (bufDisk : Nat → Bool) (count : Nat) : Owns { s with
      disk := submit (s.disk.take [i0, i1, i2]) b write i0 i1 i2
      bufDisk := bufDisk
      place := update s.place p (.waitDone ⟨b, i0, i1, i2, s.count⟩)
      count := count
      numAt := update s.numAt i0 s.count } ((p, ⟨b, i0, i1, i2, s.count⟩) :: L) := by
  have hapart : ∀ i ∈ [i0, i1, i2], i ∉ descsOf L := fun i hi hmem =>
    Bool.noConfusion ((hfree i hi).2.symm.trans ((h.free i).mp hmem).2)
  refine ⟨fun q r => ?_, ?_, fun i => ?_, fun x hx => ?_, ?_, fun q c hq => ?_⟩
  · show update s.place p _ q = _ ↔ _
    by_cases hqp : q = p
    · subst hqp
      rw [update_self, mem_cons]
      constructor
      · exact fun heq => .inl (congrArg _ (RwPlace.waitDone.inj heq).symm)
      · rintro (heq | hmem)
        · rw [(Prod.mk.inj heq).2]
        · exact absurd hmem (h.not_mem ha r)
    · rw [update_of_ne hqp, h.places, mem_cons]
      exact ⟨.inr, fun hor => hor.resolve_left fun heq => hqp (Prod.mk.inj heq).1⟩
  · exact nodup_append.mpr ⟨hnd, h.nodup, fun i hi j hj heq => hapart i hi (heq ▸ hj)⟩
  · rw [descsOf_cons, mem_append, h.free]
    show i ∈ [i0, i1, i2] ∨ _ ↔ i < numDesc ∧ (s.disk.free i && decide (i ∉ [i0, i1, i2])) = false
    by_cases hi : i ∈ [i0, i1, i2]
    · simp only [hi, true_or, not_true_eq_false, decide_false, Bool.and_false, and_true, true_iff]
      exact (hfree i hi).1
    · simp only [hi, false_or, not_false_eq_true, decide_true, Bool.and_true]
  · rcases mem_cons.mp hx with rfl | hx
    · exact ⟨submit_formatted write s.count hnd, update_self ..⟩
    · have hne : ∀ i ∈ x.2.descs, i ∉ [i0, i1, i2] := fun i hi hmem => hapart i hmem (mem_descsOf hx hi)
      have h0 : x.2.i0 ≠ i0 := fun heq => hne x.2.i0 (head_mem _) (by simp [heq])
      obtain ⟨hfmt, hnum⟩ := h.formatted x hx
      exact ⟨hfmt.congr (fun i hi => submit_desc (hne i hi)) (update_of_ne h0 _ _), (update_of_ne h0 _ _).trans hnum⟩
  · exact bufs_update h.bufs fun q c hq hc => some.inj hc ▸ ha.other q hq
  · exact h.busy_update ha rfl q c hq

theorem DiskSys.Phases.submit (ho : s.Owns L) (h : s.Phases L A F U N) (ha : s.Asks p b) {i0 i1 i2 : Nat}
    (write : Bool) : Phases { s with
      disk := Dev.submit (s.disk.take [i0, i1, i2]) b write i0 i1 i2
      bufDisk := update s.bufDisk b true
      place := update s.place p (.waitDone ⟨b, i0, i1, i2, s.count⟩)
      count := s.count + 1
      numAt := update s.numAt i0 s.count }
      ((p, ⟨b, i0, i1, i2, s.count⟩) :: L) (A ++ [(p, ⟨b, i0, i1, i2, s.count⟩)]) F U N := by
  generalize hx : ((p, ⟨b, i0, i1, i2, s.count⟩) : Nat × Req) = x
  have hxb : x.2.b = b := by rw [← hx]
  have hxi : x.2.i0 = i0 := by rw [← hx]
  have hxn : x.2.num = s.count := by rw [← hx]
  have hother : ∀ y ∈ L, y.2.b ≠ b := fun y hy heq => by
    have hbuf := ho.buf hy
    rw [heq] at hbuf
    by_cases hyp : y.1 = p
    · exact ho.not_mem ha y.2 (by rw [← hyp]; exact hy)
    · exact ha.other y.1 hyp hbuf
  have hin : ∀ y ∈ A ++ (F ++ (U ++ N)), y ∈ L := fun y hy => h.perm.mem_iff.mpr hy
  have hlen := h.length
  have hle := ho.length_le
  have hA : A.length < numDesc := by
    show _ < 8
    omega
  have hslot : s.disk.availIdx.toNat % numDesc = (s.lastAvail.toNat + A.length) % numDesc := by
    rw [h.avail, UInt16.toNat_add]
    show (_ + A.length % 65536) % 65536 % 8 = _ % 8
    omega
  have hnums : (s.completed ++ (A ++ [x] ++ F).map (·.2.num)).Perm
      (s.count :: (s.completed ++ (A ++ F).map (·.2.num))) := by
    refine perm_iff_count.mpr fun k => ?_
    simp only [count_append, map_append, map_cons, map_nil, count_cons, count_nil, hxn]
    omega
  refine ⟨?_, fun y hy => ?_, fun y hy => ?_, ?_, ?_, h.inflight, h.usedIdx, h.used, h.elems, h.completed, ?_, ?_⟩
  · refine (h.perm.cons x).trans (perm_iff_count.mpr fun y => ?_)
    simp only [count_append, count_cons, count_nil]
    omega
  · show update s.bufDisk b true y.2.b = true
    by_cases hyb : y.2.b = b
    · rw [hyb, update_self]
    · rw [update_of_ne hyb]
      refine h.waits y ?_
      have hyx : y ≠ x := fun heq => hyb (heq ▸ hxb)
      simp only [mem_append, mem_cons] at hy ⊢
      tauto
  · have hyL := hin y (by simp only [mem_append]; tauto)
    exact ⟨(update_of_ne (hother y hyL) _ _).trans (h.done y hy).1, (h.done y hy).2⟩
  · show s.disk.availIdx + 1 = s.lastAvail + UInt16.ofNat (A ++ [x]).length
    rw [h.avail, length_append, UInt16.ofNat_add, UInt16.add_assoc]
    rfl
  · show cells numDesc (update s.disk.availRing (s.disk.availIdx.toNat % numDesc) i0) s.lastAvail.toNat _ = _
    rw [length_append, length_singleton, hslot, cells_push hA, h.ring, map_append, map_singleton, hxi]
  · refine hnums.nodup_iff.mpr (nodup_cons.mpr ⟨fun hmem => ?_, h.nums⟩)
    exact lt_irrefl _ (h.fresh _ hmem)
  · intro k hk
    rcases mem_cons.mp (hnums.mem_iff.mp hk) with rfl | hk
    · exact Nat.lt_succ_self _
    · exact Nat.lt_succ_of_lt (h.fresh k hk)

theorem DiskSys.Owns.wait (h : s.Owns L) (ha : s.Asks p b) (write : Bool) {d' : Disk} (hd : s.disk.GivenUp d') :
    Owns { s with disk := d', place := update s.place p (.waitDesc b write) } L := by
  obtain ⟨hdesc, hrest⟩ := hd
  have hfree : d'.free = s.disk.free := by rw [hrest]
  have hinfo : d'.infoB = s.disk.infoB := by rw [hrest]
  refine ⟨fun q r => ?_, h.nodup, fun i => ?_, fun x hx => ?_, ?_, fun q c hq => ?_⟩
  · show update s.place p _ q = _ ↔ _
    by_cases hqp : q = p
    · subst hqp
      rw [update_self]
      exact iff_of_false (fun heq => by cases heq) (h.not_mem ha r)
    · rw [update_of_ne hqp]
      exact h.places q r
  · show _ ↔ i < numDesc ∧ d'.free i = false
    rw [hfree]
    exact h.free i
  · obtain ⟨hfmt, hnum⟩ := h.formatted x hx
    exact ⟨hfmt.congr (fun i hi => hdesc i (h.not_free hx hi).2) (congrFun hinfo _), hnum⟩
  · exact bufs_update h.bufs fun q c hq hc => some.inj hc ▸ ha.other q hq
  · exact h.busy_update ha rfl q c hq

theorem DiskSys.Phases.of_rest (h : s.Phases L A F U N) {d' : Disk} (hd : s.disk.GivenUp d') (place : Nat → RwPlace) :
    Phases { s with disk := d', place := place } L A F U N := by
  rw [hd.rest]
  exact ⟨h.perm, h.waits, h.done, h.avail, h.ring, h.inflight, h.usedIdx, h.used, h.elems, h.completed, h.nums, h.fresh⟩

theorem DiskSys.Inv.tryRw (h : s.Inv) (ha : s.Asks p b) (write : Bool) : ∃ s', s.tryRw p b write = .ok s' ∧ s'.Inv := by
  obtain ⟨L, A, F, U, N, ho, hp⟩ := h
  obtain ⟨d', r, halloc, hr⟩ := alloc3Desc_spec s.disk
  unfold DiskSys.tryRw
  rw [halloc]
  rcases hr with ⟨rfl, hd⟩ | ⟨i0, i1, i2, rfl, hnd, hfree, rfl⟩
  · exact ⟨_, rfl, L, A, F, U, N, ho.wait ha write hd, hp.of_rest hd _⟩
  · exact ⟨_, rfl, _, _, F, U, N, ho.submit ha write hnd hfree _ _, hp.submit ho ha write⟩

theorem DiskSys.Owns.finish (h : s.Owns L) {r : Req} (hr : (p, r) ∈ L) : Owns { s with
    disk := ((({ s.disk with infoB := update s.disk.infoB r.i0 0 }.freed r.i0).freed r.i1).freed r.i2)
    place := update s.place p .user, busy := update s.busy r.b false } (L.erase (p, r)) := by
  have hnd := h.nodup_self
  have hperm : (descsOf L).Perm (r.descs ++ descsOf (L.erase (p, r))) := (perm_cons_erase hr).flatMap_right _
  have hnd' := nodup_append.mp (hperm.nodup_iff.mp h.nodup)
  have hmem : ∀ x, x ∈ L.erase (p, r) ↔ x ≠ (p, r) ∧ x ∈ L := fun x => hnd.mem_erase_iff
  have hproc : ∀ x ∈ L.erase (p, r), x.1 ≠ p := fun x hx heq =>
    ((hmem x).mp hx).1 (h.eq_of_proc ((hmem x).mp hx).2 hr heq)
  refine ⟨fun q r' => ?_, hnd'.2.1, fun i => ?_, fun x hx => ?_, ?_, fun q c hq => ?_⟩
  · show update s.place p _ q = _ ↔ _
    by_cases hqp : q = p
    · subst hqp
      rw [update_self]
      exact iff_of_false (fun heq => by cases heq) fun hx => hproc _ hx rfl
    · rw [update_of_ne hqp, h.places, hmem]
      exact (and_iff_right fun heq => hqp (Prod.mk.inj heq).1).symm
  · show _ ↔ i < numDesc ∧ Disk.free _ i = false
    have hi := hperm.mem_iff (a := i)
    rw [h.free, mem_append] at hi
    rw [freed3_free]
    show _ ↔ i < numDesc ∧ i ∉ r.descs ∧ s.disk.free i = false
    tauto
  · have hxL := ((hmem x).mp hx).2
    have hapart := h.apart hxL hr ((hmem x).mp hx).1
    have h0 : x.2.i0 ≠ r.i0 := fun heq => hapart (head_mem x.2) (heq ▸ head_mem r)
    obtain ⟨hfmt, hnum⟩ := h.formatted x hxL
    exact ⟨hfmt.congr (fun i hi => freed3_desc fun hir => hapart hi hir) (update_of_ne h0 _ _), hnum⟩
  · exact bufs_update h.bufs fun q c hq hc => by cases hc
  · change (update s.place p _ q).buf = some c at hq
    by_cases hqp : q = p
    · subst hqp
      rw [update_self] at hq
      cases hq
    · rw [update_of_ne hqp] at hq
      have hne : c ≠ r.b := fun heq => hqp (h.bufs q p c hq (by rw [heq]; exact h.buf hr))
      exact ⟨(h.busy q c hq).1, (update_of_ne hne _ _).trans (h.busy q c hq).2⟩

theorem DiskSys.Inv.finish (h : s.Inv) {r : Req} (hr : s.place p = .waitDone r) (hdone : s.bufDisk r.b = false) :
    ∃ s', s.finish p r = .ok s' ∧ s'.Inv := by
  obtain ⟨L, A, F, U, N, ho, hp⟩ := h
  have hmem := (ho.places p r).mp hr
  have hown : ∀ i ∈ r.descs, i < numDesc ∧ s.disk.free i = false := fun i hi => ho.not_free hmem hi
  have hnd : r.descs.Nodup := (nodup_flatMap.mp ho.nodup).1 _ hmem
  have hN : (p, r) ∈ N := by
    have hin := hp.perm.mem_iff.mp hmem
    simp only [mem_append] at hin
    by_contra hN
    have hwait := hp.waits (p, r) (by simp only [mem_append]; tauto)
    exact Bool.noConfusion (hdone.symm.trans hwait)
  unfold DiskSys.finish
  rw [freeChain_ok (ho.formatted _ hmem).1 hnd hown]
  refine ⟨_, rfl, L.erase (p, r), A, F, U, N.erase (p, r), ho.finish hmem, ?_⟩
  refine ⟨?_, hp.waits, fun x hx => hp.done x (mem_of_mem_erase hx), hp.avail, hp.ring, hp.inflight, hp.usedIdx,
    hp.used, hp.elems, hp.completed, hp.nums, hp.fresh⟩
  refine perm_iff_count.mpr fun x => ?_
  have hL := (perm_cons_erase hmem).count_eq x
  have hNc := (perm_cons_erase hN).count_eq x
  have hall := hp.perm.count_eq x
  simp only [count_append, count_cons] at hL hNc hall ⊢
  omega

end

/-! ## Runs -/

section
variable {s : DiskSys}

theorem DiskSys.Inv.step (h : s.Inv) {e : DiskEv} {x : Except DiskPanic DiskSys} (hs : s.step e = some x) :
    (∃ s', x = .ok s' ∧ s'.Inv) ∨
      x = .error .status ∧ e = .intr ∧ s.disk.infoStatus (s.disk.usedElems s.disk.usedIdx) ≠ 0 := by
  obtain ⟨L, A, F, U, N, ho, hp⟩ := h
  cases e with
  | rw p b write =>
    left
    obtain ⟨⟨hplace, hb, hbusy⟩, hx⟩ := ite_none_right_eq_some.mp hs
    cases hx
    have hfree : ∀ q, (s.place q).buf ≠ some b := fun q hq =>
      Bool.noConfusion (hbusy.symm.trans (ho.busy q b hq).2)
    have ho' : Owns { s with busy := update s.busy b true } L := by
      refine ⟨ho.places, ho.nodup, ho.free, ho.formatted, ho.bufs, fun q c hq => ⟨(ho.busy q c hq).1, ?_⟩⟩
      have hne : c ≠ b := fun heq => hfree q (heq ▸ hq)
      exact (update_of_ne hne _ _).trans (ho.busy q c hq).2
    have ha : Asks { s with busy := update s.busy b true } p b :=
      ⟨fun r hr => RwPlace.noConfusion (hplace.symm.trans hr), hb, update_self .., fun q _ => hfree q⟩
    exact Inv.tryRw ⟨L, A, F, U, N, ho', hp.perm, hp.waits, hp.done, hp.avail, hp.ring, hp.inflight, hp.usedIdx,
      hp.used, hp.elems, hp.completed, hp.nums, hp.fresh⟩ ha write
  | resume p =>
    left
    unfold DiskSys.step at hs
    dsimp only at hs
    split at hs
    · cases hs
    · next b write hplace =>
      have hbuf : (s.place p).buf = some b := by
        rw [hplace]
        rfl
      have ha : s.Asks p b := ⟨fun r hr => RwPlace.noConfusion (hplace.symm.trans hr), (ho.busy p b hbuf).1,
        (ho.busy p b hbuf).2, fun q hq hqb => hq (ho.bufs q p b hqb hbuf)⟩
      cases hs
      exact Inv.tryRw ⟨L, A, F, U, N, ho, hp⟩ ha write
    · next r hplace =>
      split at hs
      · cases hs
        exact ⟨s, rfl, L, A, F, U, N, ho, hp⟩
      · next hdone =>
        cases hs
        exact Inv.finish ⟨L, A, F, U, N, ho, hp⟩ hplace (by simpa using hdone)
  | consume =>
    left
    obtain ⟨hne, hx⟩ := ite_none_left_eq_some.mp hs
    cases hx
    exact ⟨_, rfl, hp.consume ho hne⟩
  | complete k status =>
    left
    obtain ⟨f, hf, rfl⟩ := map_eq_some_iff.mp hs
    exact ⟨_, rfl, hp.complete ho status hf⟩
  | intr =>
    obtain ⟨hpend, hx⟩ := ite_none_right_eq_some.mp hs
    cases hx
    rcases hp.intr ho hpend with ⟨herr, hst⟩ | hok
    · exact .inr ⟨herr, rfl, hst⟩
    · exact .inl hok

theorem DiskSys.Inv.init : init.Inv := by
  refine ⟨[], [], [], [], [], ⟨fun p r => ?_, nodup_nil, fun i => ?_, fun x hx => ?_, fun p q b hp => ?_,
    fun p b hp => ?_⟩, ?_⟩
  · exact iff_of_false (fun h => by cases h) not_mem_nil
  · exact iff_of_false not_mem_nil fun h => by cases h.2
  · cases hx
  · cases hp
  · cases hp
  · refine ⟨.refl _, fun x hx => ?_, fun x hx => ?_, rfl, rfl, rfl, by decide, rfl, rfl, rfl, nodup_nil,
      fun k hk => ?_⟩
    · cases hx
    · cases hx
    · cases hk

/-- What the protocol promises.  The only panic left is that of a request the device reports as failed. -/
structure DiskSys.Protocol (s : DiskSys) : Prop where
  owned : ∀ p r, s.place p = .waitDone r → r.descs.Nodup ∧ ∀ i ∈ r.descs, i < numDesc ∧ s.disk.free i = false
  apart : ∀ p q r r', p ≠ q → s.place p = .waitDone r → s.place q = .waitDone r' → List.Disjoint r.descs r'.descs
  once : s.completed.Nodup ∧ s.noticed <+: s.completed
  sees : s.disk.pending ↔ s.noticed ≠ s.completed
  cleared : ∀ p r, s.place p = .waitDone r → s.bufDisk r.b = false → r.num ∈ s.completed
  panics : ∀ e x, s.step e = some (.error x) →
    x = .status ∧ e = .intr ∧ s.disk.infoStatus (s.disk.usedElems s.disk.usedIdx) ≠ 0

theorem DiskSys.Inv.protocol (h : s.Inv) : s.Protocol := by
  have hstep := fun e x hs => h.step (e := e) (x := x) hs
  obtain ⟨L, A, F, U, N, ho, hp⟩ := h
  have hlen := hp.length
  have hle := ho.length_le
  refine ⟨fun p r hr => ?_, fun p q r r' hpq hr hr' => ?_, ⟨?_, ?_⟩, ?_, fun p r hr hdone => ?_, fun e x hs => ?_⟩
  · have hmem := (ho.places p r).mp hr
    exact ⟨(nodup_flatMap.mp ho.nodup).1 _ hmem, fun i hi => ho.not_free hmem hi⟩
  · exact ho.apart ((ho.places p r).mp hr) ((ho.places q r').mp hr') fun heq => hpq (Prod.mk.inj heq).1
  · exact (nodup_append.mp hp.nums).1
  · exact ⟨_, hp.completed.symm⟩
  · have hmod : s.disk.usedIdx % numDesc = (s.disk.usedIdx + U.length) % numDesc ↔ U = [] := by
      rw [← length_eq_zero_iff]
      show s.disk.usedIdx % 8 = (s.disk.usedIdx + U.length) % 8 ↔ _
      omega
    unfold Disk.pending
    rw [hp.used, ne_eq, hmod, hp.completed, ne_eq, self_eq_append_right, map_eq_nil_iff]
  · have hmem := hp.perm.mem_iff.mp ((ho.places p r).mp hr)
    simp only [mem_append] at hmem
    have hN : (p, r) ∈ N := by
      by_contra hN
      have hwait := hp.waits (p, r) (by simp only [mem_append]; tauto)
      exact Bool.noConfusion (hdone.symm.trans hwait)
    rw [hp.completed]
    exact mem_append_left _ (hp.done _ hN).2
  · rcases hstep e _ hs with ⟨s', hx, -⟩ | ⟨hx, hrest⟩
    · cases hx
    · cases hx
      exact ⟨rfl, hrest⟩

/-- Whatever processes, device and interrupts do, the protocol is kept. -/
theorem diskProtocol {evs : List DiskEv} (h : Run (fun s e s' => DiskSys.step s e = some (.ok s')) .init evs s) :
    s.Protocol := by
  refine (Run.inv (I := Inv) (fun s e s' hi hs => ?_) h .init).protocol
  rcases hi.step hs with ⟨s'', hx, hinv⟩ | ⟨hx, -⟩
  · cases hx
    exact hinv
  · cases hx

/-- Two requests, completed in the other order; the third process waits for descriptors. -/
def threeCalls : List DiskEv :=
  [.rw 0 1 false, .rw 1 2 true, .rw 2 3 false, .consume, .consume, .complete 1 0, .intr, .complete 0 0, .resume 1]

theorem diskProtocol_three : ∃ s, Run (fun s e s' => DiskSys.step s e = some (.ok s')) .init threeCalls s ∧
    s.completed = [1, 0] ∧ s.noticed = [1] ∧ s.Protocol := by
  have hrun : Run (fun s e s' => DiskSys.step s e = some (.ok s')) .init threeCalls _ :=
    .cons rfl (.cons rfl (.cons rfl (.cons rfl (.cons rfl (.cons rfl (.cons rfl (.cons rfl (.cons rfl (.nil _)))))))))
  exact ⟨_, hrun, rfl, rfl, diskProtocol hrun⟩

end

end InternetOs.Dev
