import InternetOs.Fs.Threads

/-!
# The space that `begin_op` reserves

`begin_op` reserves `MAXOPBLOCKS` entries of the header for each operation, out of `LOGSIZE`.
The log on the disk has a block less for data, as its first block is the header, and
`log_write` refuses to go on when that many are in use.  So three operations that use what was
reserved for them make it panic (logReservation_exhausted).  With one block less for each
operation the reservation is enough:

    entries in use + what the operations may still log ≤ LOGSIZE            (Reserved.room)
    log_write does not panic                                               (logReservation)
-/

namespace InternetOs.Fs

open Function List Option

/-- What the operations may still log. -/
def spare (ops : List FsOp) : Nat := (ops.map fun op => 10 - op.blocks.length).sum

/-- The program clears the header before it ends. -/
def Prog.Clears : Prog → Prop
  | .done => False
  | .bread _ k => ∀ i, (k i).Clears
  | .memmove _ _ k => k.Clears
  | .head _ k => k.Clears
  | .bwrite _ k => k.Clears
  | .install _ k => k.Clears
  | .bunpin _ k => k.Clears
  | .brelse _ k => k.Clears
  | .clear _ => True

theorem Prog.clears_loop {body : Nat → Prog → Prog} {k : Prog}
    (h : ∀ tail k, k.Clears → (body tail k).Clears) (hk : k.Clears) (cnt : Nat) :
    ∀ tail, (loop body k tail cnt).Clears := by
  induction cnt with
  | zero => exact fun _ => hk
  | succ cnt ih => exact fun tail => h tail _ (ih (tail + 1))

theorem commitProg_clears (log : Log) : (commitProg log).Clears := by
  have hlog : ∀ tail k, k.Clears → (Prog.writeLogBody log tail k).Clears := fun _ _ hk _ _ => hk
  have hinstall : ∀ tail k, k.Clears → (Prog.installBody log tail k).Clears := fun _ _ hk _ _ => hk
  have hend : (Prog.clear (.writeHead log .done)).Clears := trivial
  refine Prog.clears_loop hlog ?_ _ 0
  exact fun _ => Prog.clears_loop hinstall hend _ 0

structure Reserved (s : Sys) : Prop where
  size : s.kern.log.size = logsize
  nonneg : 0 ≤ s.kern.log.lh.n
  count : s.kern.log.outstanding = s.ops.length
  logged : ∀ op ∈ s.ops, ∀ b ∈ op.blocks, ∃ j < s.kern.log.lh.n.toNat, s.kern.log.lh.block j = b
  few : ∀ op ∈ s.ops, op.blocks.length ≤ 9
  quiet : s.kern.log.committing = false → s.committer = .done ∧ (s.ops = [] → s.kern.log.lh.n = 0)
  busy : s.kern.log.committing = true → s.ops = [] ∧ (s.committer.Clears ∨ s.kern.log.lh.n = 0)
  /-- What is in use and what is reserved. -/
  room : s.kern.log.lh.n + spare s.ops ≤ 30
  /-- The last operation has the entries that the others were too small for. -/
  last : s.ops.length ≤ 1 → s.kern.log.lh.n + spare s.ops ≤ 29

/-! ## One operation among others -/

theorem split_at {α : Type} {l : List α} {o : Nat} {a : α} (h : l[o]? = some a) :
    ∃ l1 l2, l = l1 ++ a :: l2 ∧ (∀ b, l.set o b = l1 ++ b :: l2) ∧ l.eraseIdx o = l1 ++ l2 := by
  obtain ⟨ho, ha⟩ := List.getElem?_eq_some_iff.mp h
  refine ⟨l.take o, l.drop (o + 1), ?_, fun b => ?_, eraseIdx_eq_take_drop_succ l o⟩
  · rw [← ha, getElem_cons_drop, take_append_drop]
  · rw [set_eq_take_append_cons_drop, if_pos ho]

theorem spare_append (l1 l2 : List FsOp) : spare (l1 ++ l2) = spare l1 + spare l2 := by
  unfold spare
  rw [map_append, sum_append]

theorem spare_cons (op : FsOp) (l : List FsOp) : spare (op :: l) = 10 - op.blocks.length + spare l := by
  unfold spare
  rw [map_cons, sum_cons]

theorem spare_le (l : List FsOp) : spare l ≤ 10 * l.length := by
  induction l with
  | nil => exact Nat.zero_le _
  | cons op l ih =>
    rw [spare_cons, length_cons]
    omega

/-- What operations that log less than their share keep in reserve. -/
theorem length_le_spare {l : List FsOp} (h : ∀ op ∈ l, op.blocks.length ≤ 9) : l.length ≤ spare l := by
  induction l with
  | nil => exact Nat.zero_le _
  | cons op l ih =>
    rw [spare_cons, length_cons]
    have h1 := h op mem_cons_self
    have h2 := ih fun op' hop' => h op' (mem_cons_of_mem op hop')
    omega

namespace Reserved

variable {s s' : Sys}

section
variable (h : Reserved s)
include h

theorem goes_on (hlog : s'.kern.log = s.kern.log) (hops : s'.ops = s.ops)
    (hq : s.kern.log.committing = false → s'.committer = s.committer)
    (hc : s.committer.Clears → s'.committer.Clears) : Reserved s' := by
  constructor
  · rw [hlog]
    exact h.size
  · rw [hlog]
    exact h.nonneg
  · rw [hlog, hops]
    exact h.count
  · rw [hlog, hops]
    exact h.logged
  · rw [hops]
    exact h.few
  · rw [hlog, hops]
    exact fun hn => ⟨(hq hn).trans (h.quiet hn).1, (h.quiet hn).2⟩
  · rw [hlog, hops]
    exact fun hb => ⟨(h.busy hb).1, (h.busy hb).2.imp_left hc⟩
  · rw [hlog, hops]
    exact h.room
  · rw [hlog, hops]
    exact h.last

theorem of_log (hlog : s'.kern.log = s.kern.log) (hops : s'.ops = s.ops)
    (hc : s'.committer = s.committer) : Reserved s' :=
  h.goes_on hlog hops (fun _ => hc) (hc ▸ id)

theorem beginOp (hs : s.step .beginOp = some s') : Reserved s' := by
  obtain ⟨r, hr, rfl⟩ := map_eq_some_iff.mp hs
  rw [runK_eq_some, beginOp_run] at hr
  split_ifs at hr with hc
  · obtain ⟨h1, h2⟩ := EStateM.Result.ok.inj hr
    exact h.of_log (by rw [← h2]) (by rw [← h1]; rfl) rfl
  · obtain ⟨h1, h2⟩ := EStateM.Result.ok.inj hr
    rw [not_or, Bool.not_eq_true, not_lt] at hc
    obtain ⟨hcom, hroom⟩ := hc
    obtain ⟨hdone, hidle⟩ := h.quiet hcom
    rw [h.count] at hroom
    have hsum : spare (⟨[], none⟩ :: s.ops) = 10 + spare s.ops := by rw [spare_cons]; rfl
    have hle := spare_le s.ops
    have hn : s.kern.log.lh.n + (s.ops.length + 1) * 10 ≤ 30 := hroom
    rw [← h1, ← h2]
    constructor
    · exact h.size
    · exact h.nonneg
    · show s.kern.log.outstanding + 1 = ((s.ops.length + 1 : Nat) : Int)
      rw [h.count]
      rfl
    · intro op hop b hb
      rcases mem_cons.mp hop with rfl | hop
      · exact absurd hb not_mem_nil
      · exact h.logged op hop b hb
    · intro op hop
      rcases mem_cons.mp hop with rfl | hop
      · exact Nat.zero_le _
      · exact h.few op hop
    · exact fun _ => ⟨hdone, fun hnil => by cases hnil⟩
    · intro hbusy
      exact absurd (hcom.symm.trans hbusy) (by decide)
    · show s.kern.log.lh.n + ((spare (⟨[], none⟩ :: s.ops) : Nat) : Int) ≤ 30
      omega
    · -- alone it starts with an empty header
      intro hone
      have hnil : s.ops = [] := length_eq_zero_iff.mp (by
        change s.ops.length + 1 ≤ 1 at hone
        omega)
      show s.kern.log.lh.n + ((spare (⟨[], none⟩ :: s.ops) : Nat) : Int) ≤ 29
      rw [hidle hnil, hnil]
      decide

/-- One operation is replaced.  The header grows by no more than the blocks of the operation. -/
theorem setOp {o : Nat} {op op' : FsOp} (hop : s.ops[o]? = some op)
    (hops : s'.ops = s.ops.set o op') (hc : s'.committer = s.committer)
    (hsize : s'.kern.log.size = s.kern.log.size) (hout : s'.kern.log.outstanding = s.kern.log.outstanding)
    (hcom : s'.kern.log.committing = s.kern.log.committing) (hn : s.kern.log.lh.n ≤ s'.kern.log.lh.n)
    (hblock : ∀ j < s.kern.log.lh.n.toNat, s'.kern.log.lh.block j = s.kern.log.lh.block j)
    (hgrow : s'.kern.log.lh.n + op.blocks.length ≤ s.kern.log.lh.n + op'.blocks.length)
    (hlogged : ∀ b ∈ op'.blocks, ∃ j < s'.kern.log.lh.n.toNat, s'.kern.log.lh.block j = b)
    (hfew : op'.blocks.length ≤ 9) : Reserved s' := by
  obtain ⟨l1, l2, hl, hset, -⟩ := split_at hop
  rw [hset] at hops
  have hlen : s'.ops.length = s.ops.length := by rw [hops, hl]; simp
  -- it is not committing, as there is an operation
  have hq : s.kern.log.committing = false := by
    by_contra hb
    obtain ⟨hnil, -⟩ := h.busy (Bool.eq_true_of_not_eq_false hb)
    rw [hl] at hnil
    simp at hnil
  have hmem : ∀ x ∈ s'.ops, x = op' ∨ x ∈ s.ops := by
    intro x hx
    rw [hops] at hx
    rw [hl]
    rcases mem_append.mp hx with hx | hx
    · exact .inr (mem_append_left _ hx)
    · rcases mem_cons.mp hx with rfl | hx
      · exact .inl rfl
      · exact .inr (mem_append_right _ (mem_cons_of_mem _ hx))
  have hsum : (s'.kern.log.lh.n : Int) + spare s'.ops ≤ s.kern.log.lh.n + spare s.ops := by
    have h1 : spare s'.ops = spare l1 + (10 - op'.blocks.length + spare l2) := by
      rw [hops, spare_append, spare_cons]
    have h2 : spare s.ops = spare l1 + (10 - op.blocks.length + spare l2) := by
      rw [hl, spare_append, spare_cons]
    omega
  constructor
  · rw [hsize]
    exact h.size
  · exact h.nonneg.trans hn
  · rw [hout, hlen]
    exact h.count
  · intro x hx b hb
    rcases hmem x hx with rfl | hx
    · exact hlogged b hb
    · obtain ⟨j, hj, hjb⟩ := h.logged x hx b hb
      exact ⟨j, by omega, by rw [hblock j hj]; exact hjb⟩
  · intro x hx
    rcases hmem x hx with rfl | hx
    · exact hfew
    · exact h.few x hx
  · intro _
    refine ⟨hc.trans (h.quiet hq).1, fun hnil => ?_⟩
    rw [hops] at hnil
    simp at hnil
  · intro hb
    rw [hcom, hq] at hb
    cases hb
  · exact hsum.trans h.room
  · intro hone
    exact hsum.trans (h.last (by omega))

theorem logCheck {o i : Nat} (hs : s.step (.logCheck o i) = some s') : Reserved s' := by
  simp only [Sys.step] at hs
  split at hs
  · rename_i blocks hop
    split_ifs at hs with hheld
    obtain ⟨r, hr, rfl⟩ := map_eq_some_iff.mp hs
    rw [runK_eq_some, logCheck_run] at hr
    split_ifs at hr
    obtain ⟨-, hk⟩ := EStateM.Result.ok.inj hr
    have hin := mem_of_getElem? hop
    rw [← hk]
    exact h.setOp hop rfl rfl rfl rfl rfl (le_rfl) (fun _ _ => rfl) (le_rfl)
      (h.logged ⟨blocks, none⟩ hin) (h.few ⟨blocks, none⟩ hin)
  · cases hs

theorem logRecord {o : Nat} (hw : s.within 9 (.logRecord o) = true)
    (hs : s.step (.logRecord o) = some s') : Reserved s' := by
  simp only [Sys.step] at hs
  split at hs
  · rename_i blocks i hop
    obtain ⟨r, hr, rfl⟩ := map_eq_some_iff.mp hs
    rw [runK_eq_some, logRecord_run] at hr
    obtain ⟨-, hk⟩ := EStateM.Result.ok.inj hr
    have hlog : r.2.log = { s.kern.log with lh := s.kern.log.lh.record (s.kern.bufs i).blockno } := by
      rw [← hk]
      split_ifs <;> rfl
    have hin := mem_of_getElem? hop
    have hfew : (blocks.insert (s.kern.bufs i).blockno).length ≤ 9 := by
      simp only [Sys.within, hop] at hw
      exact of_decide_eq_true hw
    generalize (s.kern.bufs i).blockno = b at hlog hfew ⊢
    have hplace := s.kern.log.lh.place_spec b
    refine h.setOp hop rfl rfl (by rw [hlog]) (by rw [hlog]) (by rw [hlog])
      ?_ ?_ ?_ ?_ hfew
    · rw [hlog]
      show _ ≤ ite _ _ _
      split_ifs <;> omega
    · intro j hj
      rw [hlog]
      show update _ _ _ j = _
      rcases hplace with ⟨hlt, hb⟩ | ⟨heq, -⟩
      · rw [update_eq_self_iff.mpr hb.symm]
      · rw [update_of_ne (by omega)]
    · -- a block that is new in the header is new to the operation
      rw [hlog]
      show ite _ _ _ + ((blocks.length : Nat) : Int) ≤ s.kern.log.lh.n + (((blocks.insert b).length : Nat) : Int)
      have hge : blocks.length ≤ (blocks.insert b).length := length_le_length_insert
      split_ifs with hnew
      · have hni : b ∉ blocks := by
          intro hb
          obtain ⟨j, hj, hjb⟩ := h.logged _ hin b hb
          rcases hplace with ⟨hlt, -⟩ | ⟨-, hno⟩
          · omega
          · exact hno j hj hjb
        rw [length_insert_of_not_mem hni]
        omega
      · omega
    · intro x hx
      rw [hlog]
      show ∃ j < (ite _ _ _ : Int).toNat, update s.kern.log.lh.block (s.kern.log.lh.place b) b j = x
      rcases mem_insert_iff.mp hx with rfl | hx
      · refine ⟨s.kern.log.lh.place x, ?_, update_self _ _ _⟩
        have := h.nonneg
        rcases hplace with ⟨hlt, -⟩ | ⟨heq, -⟩
        · rw [if_neg (by omega)]
          exact hlt
        · omega
      · obtain ⟨j, hj, hjb⟩ := h.logged _ hin x hx
        refine ⟨j, by split_ifs <;> omega, ?_⟩
        rcases hplace with ⟨hlt, hb⟩ | ⟨heq, -⟩
        · rw [update_eq_self_iff.mpr hb.symm]
          exact hjb
        · rw [update_of_ne (by omega)]
          exact hjb
  · cases hs

theorem endOp {o : Nat} (hs : s.step (.endOp o) = some s') : Reserved s' := by
  simp only [Sys.step] at hs
  split at hs
  · rename_i blocks hop
    obtain ⟨r, hr, rfl⟩ := map_eq_some_iff.mp hs
    rw [runK_eq_some, endOpLocked_run] at hr
    obtain ⟨l1, l2, hl, -, herase⟩ := split_at hop
    have hin := mem_of_getElem? hop
    have hfew := h.few _ hin
    dsimp only at hfew
    have hsub : ∀ x ∈ l1 ++ l2, x ∈ s.ops := by
      intro x hx
      rw [hl]
      rcases mem_append.mp hx with hx | hx
      · exact mem_append_left _ hx
      · exact mem_append_right _ (mem_cons_of_mem _ hx)
    have hsp : spare s.ops = spare (l1 ++ l2) + (10 - blocks.length) := by
      rw [hl, spare_append, spare_append, spare_cons]
      dsimp only
      omega
    have hlen : s.ops.length = (l1 ++ l2).length + 1 := by
      rw [hl]
      simp
      omega
    have hroom := h.room
    have hout := h.count
    have hroom' : s.kern.log.lh.n + ((spare (l1 ++ l2) : Nat) : Int) ≤ 29 := by omega
    split_ifs at hr with hcom hlast
    · obtain ⟨h1, h2⟩ := EStateM.Result.ok.inj hr
      have hnil : l1 ++ l2 = [] := length_eq_zero_iff.mp (by omega)
      rw [← h1, ← h2, herase, hnil]
      constructor
      · exact h.size
      · exact h.nonneg
      · exact hlast
      · exact fun op hop => absurd hop not_mem_nil
      · exact fun op hop => absurd hop not_mem_nil
      · intro hc
        cases hc
      · intro _
        refine ⟨rfl, ?_⟩
        show Prog.Clears (if true = true ∧ 0 < s.kern.log.lh.n then _ else _) ∨ s.kern.log.lh.n = 0
        by_cases hpos : 0 < s.kern.log.lh.n
        · rw [if_pos ⟨rfl, hpos⟩]
          exact .inl (commitProg_clears _)
        · have := h.nonneg
          exact .inr (by omega)
      · rw [hnil] at hroom'
        exact hroom'.trans (by decide)
      · rw [hnil] at hroom'
        exact fun _ => hroom'
    · obtain ⟨h1, h2⟩ := EStateM.Result.ok.inj hr
      rw [← h1, ← h2, herase]
      constructor
      · exact h.size
      · exact h.nonneg
      · show s.kern.log.outstanding - 1 = ((l1 ++ l2).length : Int)
        omega
      · exact fun op hop => h.logged op (hsub op hop)
      · exact fun op hop => h.few op (hsub op hop)
      · intro hq
        refine ⟨(h.quiet (Bool.eq_false_iff.mpr hcom)).1, fun hz => ?_⟩
        change l1 ++ l2 = [] at hz
        rw [hz] at hlen
        change s.ops.length = 0 + 1 at hlen
        omega
      · exact fun hb => absurd hb hcom
      · exact hroom'.trans (by decide)
      · exact fun _ => hroom'
  · cases hs

/-- The committing thread goes on and leaves the log alone. -/
theorem commit_log {p : Prog} (hlog : s'.kern.log = s.kern.log) (hops : s'.ops = s.ops)
    (hbusy : s.kern.log.committing = true) (hp : s.committer = p) (hc : p.Clears → s'.committer.Clears) :
    Reserved s' :=
  h.goes_on hlog hops (fun hq => absurd (hbusy.symm.trans hq) (by decide)) (hp ▸ hc)

theorem commitStep (hs : s.step .commitStep = some s') : Reserved s' := by
  simp only [Sys.step] at hs
  split_ifs at hs with hbusy
  obtain ⟨hnil, hcl⟩ := h.busy hbusy
  unfold Sys.commitStep at hs
  split at hs <;> rename_i hprog <;> obtain ⟨r, hr, rfl⟩ := map_eq_some_iff.mp hs <;>
    rw [runK_eq_some] at hr
  · -- the end of `end_op`
    have hz : s.kern.log.lh.n = 0 := by
      rw [hprog] at hcl
      exact hcl.resolve_left id
    obtain ⟨-, hk⟩ := EStateM.Result.ok.inj hr
    rw [← hk]
    exact ⟨h.size, h.nonneg, h.count, h.logged, h.few, fun _ => ⟨hprog, fun _ => hz⟩, fun hb => (by cases hb),
      h.room, h.last⟩
  · exact h.commit_log (keepsLog_bread _ _ _ _ _ hr) rfl hbusy hprog fun hc => hc r.1
  · exact h.commit_log (keepsLog_memmove _ _ _ _ _ hr) rfl hbusy hprog id
  · exact h.commit_log (keepsLog_putLh _ _ _ _ hr) rfl hbusy hprog id
  · exact h.commit_log (keepsLog_bwrite _ _ _ _ hr) rfl hbusy hprog id
  · exact h.commit_log (keepsLog_bwrite _ _ _ _ hr) rfl hbusy hprog id
  · exact h.commit_log (keepsLog_bunpin _ _ _ _ hr) rfl hbusy hprog id
  · exact h.commit_log (keepsLog_brelse _ _ _ _ hr) rfl hbusy hprog id
  · obtain ⟨-, hk⟩ := EStateM.Result.ok.inj hr
    rw [← hk]
    refine ⟨h.size, le_refl 0, h.count, ?_, h.few, fun hq => ?_, fun _ => ⟨hnil, .inr rfl⟩, ?_, ?_⟩
    · rw [hnil]
      exact fun op hop => absurd hop not_mem_nil
    · exact absurd (hbusy.symm.trans hq) (by decide)
    · show (0 : Int) + ((spare s.ops : Nat) : Int) ≤ 30
      rw [hnil]
      decide
    · intro _
      show (0 : Int) + ((spare s.ops : Nat) : Int) ≤ 29
      rw [hnil]
      decide

theorem step {c : Call} (hw : s.within 9 c = true) (hs : s.step c = some s') : Reserved s' := by
  cases c with
  | beginOp => exact h.beginOp hs
  | bread dev b =>
    obtain ⟨r, hr, rfl⟩ := map_eq_some_iff.mp hs
    rw [runK_eq_some] at hr
    exact h.of_log (keepsLog_bread _ _ _ _ _ hr) rfl rfl
  | store i data =>
    simp only [Sys.step] at hs
    split_ifs at hs
    cases hs
    exact h.of_log rfl rfl rfl
  | brelse i =>
    simp only [Sys.step] at hs
    split_ifs at hs
    obtain ⟨r, hr, rfl⟩ := map_eq_some_iff.mp hs
    rw [runK_eq_some] at hr
    exact h.of_log (keepsLog_brelse _ _ _ _ hr) rfl rfl
  | logCheck o i => exact h.logCheck hs
  | logRecord o => exact h.logRecord hw hs
  | endOp o => exact h.endOp hs
  | commitStep => exact h.commitStep hs

/-- While an operation is under way, the header has an entry to spare. -/
theorem le_28 (hop : s.ops ≠ []) : s.kern.log.lh.n ≤ 28 := by
  have h1 := length_le_spare h.few
  have h2 := length_pos_of_ne_nil hop
  have h3 := h.room
  have h4 := h.last
  omega

end

end Reserved

/-! ## The log after boot -/

theorem Boots.reserved {image : UInt32 → Block} {dev logstart : UInt32} {s : Sys}
    (h : Boots image dev logstart logsize s) : Reserved s := by
  obtain ⟨k, hk, rfl⟩ := h
  have hlog : k.log.size = logsize ∧ k.log.lh.n = 0 ∧ k.log.outstanding = 0 ∧ k.log.committing = false := by
    obtain ⟨_, k1, h1, hk⟩ := bind_ok hk
    cases h1
    obtain ⟨_, k2, h2, hk⟩ := bind_ok hk
    obtain ⟨_, k3, h3, hk⟩ := bind_ok hk
    obtain ⟨_, k4, h4, hk⟩ := bind_ok hk
    cases h4
    obtain ⟨lh, hlh⟩ := readHead_log h2
    rw [keepsLog_writeHead _ _ _ hk]
    show k3.log.size = _ ∧ (0 : Int) = 0 ∧ k3.log.outstanding = _ ∧ k3.log.committing = _
    rw [keepsLog_installTrans _ _ _ h3, hlh]
    exact ⟨rfl, rfl, rfl, rfl⟩
  obtain ⟨h1, h2, h3, h4⟩ := hlog
  constructor
  · exact h1
  · exact Int.le_of_eq h2.symm
  · exact h3
  · exact fun op hop => absurd hop not_mem_nil
  · exact fun op hop => absurd hop not_mem_nil
  · exact fun _ => ⟨rfl, fun _ => h2⟩
  · intro hb
    exact absurd (h4.symm.trans hb) (by decide)
  · show k.log.lh.n + 0 ≤ 30
    omega
  · intro _
    show k.log.lh.n + 0 ≤ 29
    omega

/-- **Log reservation.**  When every operation logs at most `MAXOPBLOCKS - 1` different blocks, no
`log_write` panics, and the header never has more entries than the log has blocks for. -/
theorem logReservation {image : UInt32 → Block} {dev logstart : UInt32} {s₀ s : Sys} {calls : List Call}
    (hboot : Boots image dev logstart logsize s₀)
    (hrun : Run (guard (fun s c => s.within 9 c = true) fun s c s' => s.step c = some s') s₀ calls s) :
    s.kern.log.lh.n ≤ s.kern.log.size - 1 ∧ ∀ op ∈ s.ops, ∀ i, ∃ k, logWrite i s.kern = .ok () k := by
  have h := hrun.inv (I := Reserved) (fun s c s' h hs => h.step hs.1 hs.2) hboot.reserved
  have hsize : s.kern.log.size = 30 := h.size
  constructor
  · by_cases hnil : s.ops = []
    · have := h.last (by rw [hnil]; decide)
      omega
    · have := h.le_28 hnil
      omega
  · intro op hop i
    have hle := h.le_28 (ne_nil_of_mem hop)
    have hpos : 0 < s.ops.length := length_pos_of_mem hop
    have hout := h.count
    have hls : (logsize : Int) = 30 := rfl
    rw [logWrite_eq]
    show ∃ k, EStateM.bind _ _ s.kern = .ok () k
    unfold EStateM.bind
    rw [logCheck_run, if_neg (by omega), if_neg (by omega)]
    exact ⟨_, logRecord_run i s.kern⟩

/-! ## Three operations with all that was reserved for them -/

/-- Operation `o` logs the blocks `100 + j` for `j` from `first` on. -/
def logBlocks (o first cnt : Nat) : List Call :=
  (range' first cnt).flatMap fun j =>
    [.bread 1 (UInt32.ofNat (100 + j)), .logCheck o (j + 1), .logRecord o, .brelse (j + 1)]

def fullCalls : List Call :=
  [.beginOp, .beginOp, .beginOp] ++ logBlocks 0 0 10 ++ logBlocks 1 10 10 ++ logBlocks 2 20 9 ++ [.bread 1 129]

/-- The `log_write` for the tenth block of the third operation panics. -/
theorem logReservation_exhausted : ∃ s, Boots (fun _ _ => 0) 1 2 logsize freshSys ∧
    Run (guard (fun s c => s.within 10 c = true) fun s c s' => s.step c = some s') freshSys fullCalls s ∧
    s.ops.map (fun op => op.blocks.length) = [10, 10, 9] ∧ s.held = [0] ∧
    logWrite 0 s.kern = .error "too big a transaction" s.kern := by
  refine (Run.find_guard (P := fun s => (s.ops.map fun op => op.blocks.length) = [10, 10, 9] ∧ s.held = [0] ∧
    s.kern.log.lh.n = 29 ∧ s.kern.log.size = 30) ?_ ?_).imp fun s hs => ⟨freshSys_boots, hs⟩
  · decide +kernel
  rintro s - ⟨hops, hheld, hn, hsize⟩
  refine ⟨hops, hheld, ?_⟩
  rw [logWrite_eq]
  show EStateM.bind _ _ s.kern = _
  unfold EStateM.bind
  rw [logCheck_run, if_pos (Or.inr (by omega))]

/-- Two operations that log two blocks each. -/
def sampleCalls : List Call := [.beginOp, .beginOp] ++ logBlocks 0 0 2 ++ logBlocks 1 2 2

theorem logReservation_sample : ∃ s, Boots (fun _ _ => 0) 1 2 logsize freshSys ∧
    Run (guard (fun s c => s.within 9 c = true) fun s c s' => s.step c = some s') freshSys sampleCalls s ∧
    s.ops.length = 2 ∧ s.kern.log.lh.n ≤ s.kern.log.size - 1 ∧
      ∀ op ∈ s.ops, ∀ i, ∃ k, logWrite i s.kern = .ok () k := by
  refine (Run.find_guard (P := fun s => s.ops.length = 2) ?_ ?_).imp fun s hs => ⟨freshSys_boots, hs⟩
  · decide +kernel
  · exact fun s hs hv => ⟨hv, logReservation freshSys_boots hs⟩

end InternetOs.Fs
