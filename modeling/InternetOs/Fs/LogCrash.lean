import InternetOs.Fs.Log

/-!
# Crash atomicity of the log

The functions of `log.c` write what the redo log of `Lib.RedoLog` writes:

    commit          writes  R.commit k home new …       (commit_emits)
    recoverFromLog  writes  R.recover d …               (recoverFromLog_emits)

Hence, wherever the machine stops in `commit` and however often in recoveries after that, the
next recovery ends with all blocks of the transaction old or all new (crashAtomicity), if `commit` starts with every
block in a pinned buffer.  After a recovery that had something to install this can fail (crash_splits).
-/

namespace InternetOs.Fs

open Function List Kern Emits

/-- The log area as a redo log. -/
abbrev Log.redo (lg : Log) : RedoLog UInt32 Block where
  head := lg.start
  slot := lg.slot
  count := fun b => (headN b).toNat
  home := headBlock

section
variable {may : Prop} {dev a b : UInt32} {v : UInt32 → Block} {s s2 : Kern} {i j : Nat}

theorem Cached.overwrite (h : Cached dev v s) (hi : s.Has dev b i) (hpos : 0 < s.refs i) (d : Block) :
    Cached dev (update v b d) ((s.setData i d).write i) ∧ s.Same ((s.setData i d).write i) ∧
      ((s.setData i d).write i).disk = update s.disk b d ∧
      ((s.setData i d).write i).writes = s.writes ++ [(b, d)] := by
  have h1 := h.setData hi hpos d
  have hs1 := s.same_setData i d
  have hi1 := hs1.has.mpr hi
  obtain ⟨h2, hdisk⟩ := h1.write hi1
  rw [update_self] at hdisk
  refine ⟨h2, hs1.trans ((s.setData i d).same_write i), hdisk, ?_⟩
  show s.writes ++ [_] = _
  rw [show ((s.setData i d).bufs i).blockno = b from hi1.1.2.2, h1.data b i hi1, update_self]

theorem copyToLog_emits (hf : s.Fetched₂ dev v a b i j s2) (h : Cached dev v s2) :
    Emits image writes may (do
        memmove i j
        bwrite i
        brelse j
        brelse i) s2 [(a, v b)] fun _ s' =>
      Cached dev (update v a (v b)) s' ∧ s.Traffic dev s' ∧ s'.refs = s.refs := by
  have hab : b ≠ a := by
    rintro rfl
    exact hf.ne (h.one b i j hf.fst.1 hf.snd.1)
  have hdata : (s2.bufs j).data = v b := h.data b j hf.snd
  have hri : s2.refs i = s.refs i + 1 := by
    rw [hf.refs, update_of_ne hf.ne, update_self]
  have hrj : s2.refs j = s.refs j + 1 := by rw [hf.refs, update_self]
  -- the states after `memmove`, `bwrite` and the two `brelse`
  obtain ⟨h4, hs4, hdisk, hwrites⟩ := h.overwrite hf.fst (by have := hf.nonneg.1; omega) (v b)
  have hclean : update v a (v b) b = ((s2.setData i (v b)).write i).disk b ∨
      0 < ((s2.setData i (v b)).write i).refs j + -1 := by
    rw [hdisk, update_of_ne hab, update_of_ne hab, refs_write, refs_setData, hf.disk]
    exact hf.clean.2.imp_right fun h => by omega
  have h5 := h4.release (hs4.has.mpr hf.snd) hclean
  have hs5 := hs4.trans (same_release (hs4.has.mpr hf.snd).1.1)
  have h6 := h5.release (hs5.has.mpr hf.fst) (.inl (by
    rw [disk_toFront, disk_addRef, hdisk, update_self, update_self]))
  have hs6 := hs5.trans (same_release (hs5.has.mpr hf.fst).1.1)
  refine of_run ()
    ((((((s2.setData i (v b)).write i).addRef j (-1)).toFront j).addRef i (-1)).toFront i)
    ?_ ?_ ?_ ⟨h6, hf.toTraffic.same hs6, ?_⟩
  · rw [← hdata]
    rfl
  · exact (image_toFront _ i).trans (image_toFront _ j)
  · exact (writes_toFront _ i).trans ((writes_toFront _ j).trans hwrites)
  · simp only [refs_toFront, refs_addRef, refs_write, refs_setData, hf.refs]
    funext x
    by_cases hxi : x = i
    · subst hxi
      simp [hf.ne]
    · by_cases hxj : x = j
      · subst hxj
        simp [hxi]
      · simp [hxi, hxj]

/-- The end of the body of `install_trans`; the count of the home block drops by one. -/
theorem copyHome_emits (hf : s.Fetched₂ dev v a b i j s2) (h : Cached dev v s2) :
    Emits image writes may (do
        memmove j i
        bwrite j
        bunpin j
        brelse i
        brelse j) s2 [(b, v a)] fun _ s' =>
      Cached dev (update v b (v a)) s' ∧ s.Traffic dev s' ∧
        s'.refs = update s.refs j (s.refs j - 1) ∧ s'.Named dev b j := by
  have hab : a ≠ b := by
    rintro rfl
    exact hf.ne (h.one a i j hf.fst.1 hf.snd.1)
  have hdata : (s2.bufs i).data = v a := h.data a i hf.fst
  have hri : s2.refs i = s.refs i + 1 := by
    rw [hf.refs, update_of_ne hf.ne, update_self]
  have hrj : s2.refs j = s.refs j + 1 := by rw [hf.refs, update_self]
  -- the states after `memmove`, `bwrite`, `bunpin` and the two `brelse`
  obtain ⟨h4, hs4, hdisk, hwrites⟩ := h.overwrite hf.snd (by have := hf.nonneg.2; omega) (v a)
  have hhome : update v b (v a) b = ((s2.setData j (v a)).write j).disk b := by
    rw [hdisk, update_self, update_self]
  have h5 := h4.addRef (x := -1) (hs4.has.mpr hf.snd) (.inl hhome)
  have hs5 := hs4.trans (((s2.setData j (v a)).write j).same_addRef j (-1))
  have hclean : update v b (v a) a = (((s2.setData j (v a)).write j).addRef j (-1)).disk a ∨
      0 < (((s2.setData j (v a)).write j).addRef j (-1)).refs i + -1 := by
    rw [disk_addRef, hdisk, update_of_ne hab, update_of_ne hab,
      refs_addRef, update_of_ne hf.ne, refs_write, refs_setData, hri, hf.disk]
    exact hf.clean.1.imp_right fun h => by omega
  have h6 := h5.release (hs5.has.mpr hf.fst) hclean
  have hs6 := hs5.trans (same_release (hs5.has.mpr hf.fst).1.1)
  have h7 := h6.release (hs6.has.mpr hf.snd) (.inl (by
    rw [disk_toFront, disk_addRef, disk_addRef, ← hhome]))
  have hs7 := hs6.trans (same_release (hs6.has.mpr hf.snd).1.1)
  refine of_run ()
    (((((((s2.setData j (v a)).write j).addRef j (-1)).addRef i (-1)).toFront i).addRef j (-1)).toFront j)
    ?_ ?_ ?_ ⟨h7, hf.toTraffic.same hs7, ?_, (hs7.has.mpr hf.snd).1⟩
  · rw [← hdata]
    rfl
  · exact (image_toFront _ j).trans (image_toFront _ i)
  · exact (writes_toFront _ j).trans ((writes_toFront _ i).trans hwrites)
  · simp only [refs_toFront, refs_addRef, refs_write, refs_setData, hf.refs]
    funext x
    by_cases hxj : x = j
    · subst hxj
      simp [Ne.symm hf.ne]
      ring
    · by_cases hxi : x = i
      · subst hxi
        simp [hxj]
      · simp [hxi, hxj]

end

/-! ## The header -/

theorem Cached.setLog {dev : UInt32} {v : UInt32 → Block} {s : Kern} (h : Cached dev v s) (log : Log) :
    Cached dev v { s with log := log } :=
  ⟨h.nodup, h.one, h.data, h.dirty⟩

theorem Kern.release_setLog (s : Kern) (i : Nat) (log : Log) : (addRef { s with log := log } i (-1)).toFront i =
      { (s.addRef i (-1)).toFront i with log := log } := by
  unfold toFront
  by_cases h0 : ((s.addRef i (-1)).bufs i).refcnt = 0
  · rw [if_pos h0]
    exact if_pos h0
  · rw [if_neg h0]
    exact if_neg h0

section
variable {may : Prop} {dev b : UInt32} {v : UInt32 → Block} {s s2 : Kern} {i : Nat}

theorem Kern.Fetched.refs_release (hf : s.Fetched dev b i s2) : update s2.refs i (s2.refs i + -1) = s.refs := by
  rw [hf.refs]
  funext x
  by_cases hx : x = i
  · simp
  · simp [hx]

theorem readHead_emits (h : Cached dev v s) (hdev : s.log.dev = dev)
    (hfree : ¬ may → (∃ i, s.Named dev s.log.start i) ∨ ∃ i ∈ s.order, s.refs i = 0)
    (hnn : ∀ i, s.Named dev s.log.start i → 0 ≤ s.refs i) :
    Emits image writes may readHead s [] fun _ s' => ∃ s1, Cached dev v s1 ∧ s.Traffic dev s1 ∧
      s1.refs = s.refs ∧ s' = { s1 with log := { s.log with lh :=
        { n := headN (v s.log.start)
          block := fun i => if (i : Int) < headN (v s.log.start) then headBlock (v s.log.start) i
            else s.log.lh.block i } } } := by
  subst hdev
  refine get ?_
  refine (bread_emits h hfree hnn).seq fun i s2 ⟨hf, h2, hi⟩ => ?_
  have hdata : (s2.bufs i).data = v s.log.start := h2.data _ _ hf.has
  have hri : s2.refs i = s.refs i + 1 := by rw [hf.refs, update_self]
  have h3 := h2.release hf.has (by
    rw [hf.disk]
    exact (hf.clean_or h h2).imp_right fun h => by omega)
  refine of_run () { (s2.addRef i (-1)).toFront i with log := { s.log with lh :=
      { n := headN (v s.log.start)
        block := fun i => if (i : Int) < headN (v s.log.start) then headBlock (v s.log.start) i
          else s.log.lh.block i } } } ?_ ?_ ?_ ⟨(s2.addRef i (-1)).toFront i, h3,
    (hf.traffic hi).same (same_release hf.has.1.1), ?_, rfl⟩
  · rw [← hdata, ← hf.log]
    exact congrArg (EStateM.Result.ok ()) (release_setLog s2 i _)
  · exact image_toFront _ i
  · rw [append_nil]
    exact writes_toFront _ _
  · rw [refs_toFront, refs_addRef, hf.refs_release]

theorem writeHead_emits (h : Cached dev v s) (hdev : s.log.dev = dev)
    (hfree : ¬ may → (∃ i, s.Named dev s.log.start i) ∨ ∃ i ∈ s.order, s.refs i = 0)
    (hnn : ∀ i, s.Named dev s.log.start i → 0 ≤ s.refs i) :
    Emits image writes may writeHead s [(s.log.start, putHead (v s.log.start) s.log.lh)] fun _ s' =>
      Cached dev (update v s.log.start (putHead (v s.log.start) s.log.lh)) s' ∧
        s.Traffic dev s' ∧ s'.refs = s.refs := by
  subst hdev
  refine get ?_
  refine (bread_emits h hfree hnn).seq fun i s2 ⟨hf, h2, hi⟩ => ?_
  have hdata : (s2.bufs i).data = v s.log.start := h2.data _ _ hf.has
  have hri : s2.refs i = s.refs i + 1 := by rw [hf.refs, update_self]
  generalize hhd : putHead (v s.log.start) s.log.lh = hd
  obtain ⟨h4, hs4, hdisk, hwrites⟩ := h2.overwrite hf.has (by omega) hd
  have h5 := h4.release (hs4.has.mpr hf.has) (.inl (by
    rw [hdisk, update_self, update_self]))
  have hs5 := hs4.trans (same_release (hs4.has.mpr hf.has).1.1)
  refine of_run () ((((s2.setData i hd).write i).addRef i (-1)).toFront i) ?_ ?_ ?_
    ⟨h5, (hf.traffic hi).same hs5, ?_⟩
  · rw [← hhd, ← hdata]
    rfl
  · exact image_toFront _ i
  · exact (writes_toFront _ i).trans hwrites
  · rw [refs_toFront, refs_addRef, refs_write, refs_setData, hf.refs_release]

end

/-! ## The loops -/

/-- The blocks that are still read once `tail` blocks are installed. -/
def Log.Reads (lg : Log) (k : Nat) (home : Nat → UInt32) (tail : Nat) (b : UInt32) : Prop :=
  b = lg.start ∨ (∃ j < k, b = lg.slot j) ∨ ∃ j, tail ≤ j ∧ j < k ∧ b = home j

section
variable (may : Prop) (lg : Log) (k : Nat) (home : Nat → UInt32) (new : Nat → Block) (hd : Block)

/-- `write_log` has copied `tail` blocks. -/
structure Logging (tail : Nat) (s : Kern) : Prop where
  log : s.log = lg
  view : ∃ v, Cached lg.dev v s ∧ (∀ j < k, v (home j) = new j) ∧ (∀ j < tail, v (lg.slot j) = new j) ∧
    v lg.start = hd
  nonneg : ∀ b i, s.Named lg.dev b i → lg.Reads k home 0 b → 0 ≤ s.refs i
  pinned : ∀ j < k, ∃ i, s.Has lg.dev (home j) i ∧ 0 < s.refs i
  unused : ¬ may → ∃ i ∈ s.order, s.refs i = 0

/-- `install_trans` has installed `tail` blocks. -/
structure Installing (tail : Nat) (s : Kern) : Prop where
  log : s.log = lg
  view : ∃ v, Cached lg.dev v s ∧ (∀ j < k, v (lg.slot j) = new j) ∧ v lg.start = hd
  nonneg : ∀ b i, s.Named lg.dev b i → lg.Reads k home tail b → 0 ≤ s.refs i
  /-- In a commit the homes are pinned; in a recovery one buffer is lost for each home. -/
  room : ¬ may → ((∀ j, tail ≤ j → j < k → ∃ i, s.Has lg.dev (home j) i ∧ 0 < s.refs i) ∧
      ∃ i ∈ s.order, s.refs i = 0) ∨
    ∃ l : List Nat, l.length + (k - tail) < s.order.length ∧ ∀ i ∈ s.order, s.refs i ≠ 0 → i ∈ l

end

section
variable {may : Prop} {lg : Log} {k : Nat} {home : Nat → UInt32} {new : Nat → Block} {hd : Block}
  {s : Kern}

theorem Logging.step (hA : lg.redo.Apart k home) {tail : Nat} (htail : tail < k)
    (hblock : lg.lh.block tail = home tail) (h : Logging may lg k home new hd tail s) :
    Emits image writes may (do
        let dst ← bread lg.dev (lg.slot tail)
        let src ← bread lg.dev (lg.lh.block tail)
        memmove dst src
        bwrite dst
        brelse src
        brelse dst) s [(lg.slot tail, new tail)] fun _ => Logging may lg k home new hd (tail + 1) := by
  obtain ⟨v, hc, hhome, hslot, hstart⟩ := h.view
  rw [hblock]
  refine breads_emits hc (Ne.symm (hA.home_slot tail htail tail htail))
    (fun hm => .inl ⟨h.unused hm, h.pinned tail htail⟩)
    (fun i hi => h.nonneg _ i hi (.inr (.inl ⟨tail, htail, rfl⟩)))
    (fun i hi => h.nonneg _ i hi (.inr (.inr ⟨tail, Nat.zero_le _, htail, rfl⟩)))
    fun i j s2 hf h2 => ?_
  rw [← hhome tail htail]
  refine (copyToLog_emits hf h2).mono fun _ s' ⟨hc', htr, hrefs⟩ => ?_
  refine ⟨htr.log.trans h.log, ⟨_, hc', fun x hx => ?_, fun x hx => ?_, ?_⟩, fun b x hb hr => ?_,
    fun x hx => ?_, fun hm => ?_⟩
  · rw [update_of_ne (hA.home_slot x hx tail htail)]
    exact hhome x hx
  · by_cases hxt : x = tail
    · rw [hxt, update_self]
      exact hhome tail htail
    · rw [update_of_ne fun he => hxt (hA.slot_inj x (by omega) tail htail he)]
      exact hslot x (by omega)
  · rw [update_of_ne (Ne.symm (hA.slot_head tail htail))]
    exact hstart
  · rw [hrefs]
    rcases htr.named b x hb with hn | h0
    · exact h.nonneg b x hn hr
    · exact h0
  · obtain ⟨y, hy, hpos⟩ := h.pinned x hx
    exact ⟨y, htr.keeps _ y hy (by omega), by rw [hrefs]; exact hpos⟩
  · obtain ⟨y, hy, h0⟩ := h.unused hm
    exact ⟨y, htr.order.mem_iff.mpr hy, by rw [hrefs]; exact h0⟩

theorem writeLog_emits (hA : lg.redo.Apart k home) (hn : lg.lh.n.toNat = k)
    (hblock : ∀ j < k, lg.lh.block j = home j) (h : Logging may lg k home new hd 0 s) :
    Emits image writes may writeLog s ((List.range k).map fun j => (lg.slot j, new j)) fun _ =>
      Logging may lg k home new hd k := by
  refine get ?_
  rw [h.log]
  dsimp only
  rw [hn]
  exact Emits.upto (fun j s hj h => h.step hA hj (hblock j hj)) h

theorem Installing.step (hA : lg.redo.Apart k home) {tail : Nat} (htail : tail < k)
    (hblock : lg.lh.block tail = home tail) (h : Installing may lg k home new hd tail s) :
    Emits image writes may (do
        let lbuf ← bread lg.dev (lg.slot tail)
        let dbuf ← bread lg.dev (lg.lh.block tail)
        memmove dbuf lbuf
        bwrite dbuf
        bunpin dbuf
        brelse lbuf
        brelse dbuf) s [(home tail, new tail)] fun _ => Installing may lg k home new hd (tail + 1) := by
  obtain ⟨v, hc, hslot, hstart⟩ := h.view
  rw [hblock]
  refine breads_emits hc (Ne.symm (hA.home_slot tail htail tail htail)) (fun hm => ?_)
    (fun i hi => h.nonneg _ i hi (.inr (.inl ⟨tail, htail, rfl⟩)))
    (fun i hi => h.nonneg _ i hi (.inr (.inr ⟨tail, le_rfl, htail, rfl⟩)))
    fun i j s2 hf h2 => ?_
  · rcases h.room hm with ⟨hpin, hu⟩ | ⟨l, hlen, hcov⟩
    · exact .inl ⟨hu, hpin tail (le_rfl) htail⟩
    · exact .inr ⟨l, by omega, hcov⟩
  rw [← hslot tail htail]
  refine (copyHome_emits hf h2).mono fun _ s' ⟨hc', htr, hrefs, hnamed⟩ => ?_
  have hother : ∀ x, x ≠ j → s'.refs x = s.refs x := by
    intro x hx
    rw [hrefs, update_of_ne hx]
  refine ⟨htr.log.trans h.log, ⟨_, hc', fun x hx => ?_, ?_⟩, fun b x hb hr => ?_, fun hm => ?_⟩
  · rw [update_of_ne (Ne.symm (hA.home_slot tail htail x hx))]
    exact hslot x hx
  · rw [update_of_ne (Ne.symm (hA.home_head tail htail))]
    exact hstart
  · -- the block just installed is not read again
    have hne : b ≠ home tail := by
      rintro rfl
      rcases hr with he | ⟨y, hy, he⟩ | ⟨y, hty, hy, he⟩
      · exact hA.home_head tail htail he
      · exact hA.home_slot tail htail y hy he
      · have := hA.home_inj tail htail y hy he
        omega
    rw [hother x fun he => hne (by rw [← hb.2.2, he, hnamed.2.2])]
    rcases htr.named b x hb with hn | h0
    · refine h.nonneg b x hn (hr.imp_right fun hr => hr.imp_right ?_)
      rintro ⟨y, hty, hy, he⟩
      exact ⟨y, by omega, hy, he⟩
    · exact h0
  · rcases h.room hm with ⟨hpin, y, hy, h0⟩ | ⟨l, hlen, hcov⟩
    · refine .inl ⟨fun x htx hx => ?_, ?_⟩
      · obtain ⟨z, hz, hpos⟩ := hpin x (by omega) hx
        have hz' := htr.keeps _ z hz (by omega)
        refine ⟨z, hz', ?_⟩
        rw [hother z ?_]
        · exact hpos
        · rintro rfl
          have := hA.home_inj x hx tail htail (hz'.1.2.2.symm.trans hnamed.2.2)
          omega
      · -- the buffer of the home was pinned, so it is not the unused one
        obtain ⟨z, hz, hpos⟩ := hpin tail (le_rfl) htail
        have hzj : z = j := hc'.one _ z j (htr.keeps _ z hz (by omega)).1 hnamed
        refine ⟨y, htr.order.mem_iff.mpr hy, ?_⟩
        rw [hother y ?_]
        · exact h0
        · rintro rfl
          rw [hzj] at hpos
          omega
    · refine .inr ⟨j :: l, ?_, fun x hx h0 => ?_⟩
      · rw [htr.order.length_eq, length_cons]
        omega
      · by_cases hxj : x = j
        · exact hxj ▸ mem_cons_self
        · rw [hother x hxj] at h0
          exact mem_cons_of_mem j (hcov x (htr.order.mem_iff.mp hx) h0)

theorem installTrans_emits (hA : lg.redo.Apart k home) (hn : lg.lh.n.toNat = k)
    (hblock : ∀ j < k, lg.lh.block j = home j) (h : Installing may lg k home new hd 0 s) :
    Emits image writes may installTrans s ((List.range k).map fun j => (home j, new j)) fun _ =>
      Installing may lg k home new hd k := by
  refine get ?_
  rw [h.log]
  dsimp only
  rw [hn]
  exact Emits.upto (fun j s hj h => h.step hA hj (hblock j hj)) h

/-! ## Commit and recovery -/

theorem Logging.writeHead (hA : lg.redo.Apart k home) (h : Logging may lg k home new hd k s) :
    Emits image writes may writeHead s [(lg.start, putHead hd lg.lh)] fun _ =>
      Installing may lg k home new (putHead hd lg.lh) 0 := by
  obtain ⟨v, hc, -, hslot, hstart⟩ := h.view
  have hlog := h.log
  subst hlog
  rw [← hstart]
  refine (writeHead_emits hc rfl (fun hm => .inr (h.unused hm))
    fun i hi => h.nonneg _ i hi (.inl rfl)).mono fun _ s' ⟨hc', htr, hrefs⟩ => ?_
  refine ⟨htr.log, ⟨_, hc', fun j hj => ?_, update_self _ _ _⟩, fun b i hb hr => ?_,
    fun hm => .inl ⟨fun j _ hj => ?_, ?_⟩⟩
  · rw [update_of_ne (hA.slot_head j hj)]
    exact hslot j hj
  · rw [hrefs]
    rcases htr.named b i hb with hn | h0
    · exact h.nonneg b i hn hr
    · exact h0
  · obtain ⟨i, hi, hpos⟩ := h.pinned j hj
    exact ⟨i, htr.keeps _ i hi (by omega), by rw [hrefs]; exact hpos⟩
  · obtain ⟨i, hi, h0⟩ := h.unused hm
    exact ⟨i, htr.order.mem_iff.mpr hi, by rw [hrefs]; exact h0⟩

theorem Installing.clear (h : Installing may lg k home new hd k s) :
    Emits image writes may (do
        setLh fun lh => { lh with n := 0 }
        writeHead) s [(lg.start, clearHead hd)] fun _ _ => True := by
  obtain ⟨v, hc, -, hstart⟩ := h.view
  have hlog := h.log
  subst hlog
  refine seq (P := fun _ s' => s' = { s with log := { s.log with lh := { s.log.lh with n := 0 } } })
    (of_run () _ rfl rfl (append_nil _).symm rfl) ?_
  rintro _ _ rfl
  rw [← hstart]
  refine (writeHead_emits (hc.setLog { s.log with lh := { s.log.lh with n := 0 } }) rfl (fun hm => .inr ?_) fun i hi =>
    h.nonneg _ i hi (.inl rfl)).mono fun _ _ _ => trivial
  rcases h.room hm with ⟨-, hu⟩ | ⟨l, hlen, hcov⟩
  · exact hu
  · exact hc.exists_unused (by omega) hcov

/-- **`commit`** writes what the redo log's commit writes. -/
theorem commit_emits (hA : lg.redo.Apart k home) (hpos : 0 < lg.lh.n) (hn : lg.lh.n.toNat = k)
    (hblock : ∀ j < k, lg.lh.block j = home j) (h : Logging may lg k home new hd 0 s) :
    Emits image writes may commit s
      (lg.redo.commit k home new (putHead hd lg.lh) (clearHead (putHead hd lg.lh)))
      fun _ _ => True := by
  refine get ?_
  rw [h.log, if_pos hpos]
  refine (writeLog_emits hA hn hblock h).bind fun _ s1 h1 => ?_
  refine (h1.writeHead hA).bind fun _ s2 h2 => ?_
  exact (installTrans_emits hA hn hblock h2).bind fun _ s3 h3 => h3.clear

/-- **`recover_from_log`** on a cache without references writes what a recovery of the redo
log writes, and ends. -/
theorem recoverFromLog_emits {v : UInt32 → Block} (hc : Cached lg.dev v s) (hlog : s.log = lg)
    (hrefs : ∀ i ∈ s.order, s.refs i = 0) (hlen : s.order.length = nbuf) (hk : (headN (v lg.start)).toNat < nbuf)
    (hA : lg.redo.Apart (headN (v lg.start)).toNat (headBlock (v lg.start))) :
    Emits image writes False recoverFromLog s
      (lg.redo.recover v (clearHead (v lg.start))) fun _ _ => True := by
  subst hlog
  have hnn : ∀ b i, s.Named s.log.dev b i → 0 ≤ s.refs i :=
    fun b i hi => Int.le_of_eq (hrefs i hi.1).symm
  have hunused : ∃ i ∈ s.order, s.refs i = 0 :=
    hc.exists_unused (l := []) (by rw [hlen]; decide) fun i hi h0 => absurd (hrefs i hi) h0
  -- the log after `read_head`
  obtain ⟨lg, hlg⟩ : ∃ lg : Log, lg = { s.log with lh :=
      { n := headN (v s.log.start)
        block := fun i => if (i : Int) < headN (v s.log.start) then headBlock (v s.log.start) i
          else s.log.lh.block i } } := ⟨_, rfl⟩
  have hdev : lg.dev = s.log.dev := by rw [hlg]
  have hredo : lg.redo = s.log.redo := by rw [hlg]; rfl
  have hn : lg.lh.n = headN (v s.log.start) := by rw [hlg]
  have hblock : ∀ j < (headN (v s.log.start)).toNat, lg.lh.block j = headBlock (v s.log.start) j := by
    intro j hj
    rw [hlg]
    exact if_pos (by omega)
  refine (readHead_emits hc rfl (fun _ => .inr hunused) fun i hi => hnn _ i hi).seq
    fun _ s1 ⟨s₀, hc0, htr, hr, hs1⟩ => ?_
  rw [← hlg] at hs1
  subst hs1
  have hrefs0 : ∀ i ∈ s₀.order, s₀.refs i = 0 := fun i hi => by
    rw [hr]
    exact hrefs i (htr.order.mem_iff.mp hi)
  have hinst : Installing False lg (headN (v s.log.start)).toNat (headBlock (v s.log.start))
      (fun j => v (lg.slot j)) (v lg.start) 0 { s₀ with log := lg } := by
    refine ⟨rfl, ⟨v, ?_, fun _ _ => rfl, rfl⟩, ?_, ?_⟩
    · rw [hdev]
      exact hc0.setLog lg
    · exact fun b i hi _ => Int.le_of_eq (hrefs0 i hi.1).symm
    · refine fun _ => .inr ⟨[], ?_, fun i hi h0 => absurd (hrefs0 i hi) h0⟩
      show 0 + (_ - 0) < s₀.order.length
      rw [htr.order.length_eq]
      omega
  rw [← hredo] at hA ⊢
  have hstart : s.log.start = lg.start := by rw [hlg]
  rw [hstart] at hA hinst hn hblock ⊢
  exact (installTrans_emits hA (by rw [hn]) hblock hinst).bind fun _ s2 h2 => h2.clear

end

/-! ## Crashes -/

/-- The writes of a program up to where it ends or stops. -/
def writesOf {α : Type} (x : K α) (s : Kern) : List (UInt32 × Block) :=
  (endState x s).writes.drop s.writes.length

/-- The blocks of the log. -/
def Log.Area (lg : Log) (b : UInt32) : Prop := ∃ x : Nat, (x : Int) < lg.size ∧ b = lg.start + UInt32.ofNat x

/-- A transaction as `commit` finds it: `k` different blocks outside the log, each in a buffer
that `log_write` has pinned, and a header without entries on the disk. -/
structure Txn (s : Kern) (k : Nat) (home : Nat → UInt32) (new : Nat → Block) : Prop where
  count : s.log.lh.n = k
  block : ∀ j < k, s.log.lh.block j = home j
  small : k ≤ 29
  fits : (k : Int) < s.log.size
  distinct : ∀ i < k, ∀ j < k, home i = home j → i = j
  outside : ∀ j < k, ¬ s.log.Area (home j)
  header : headN (s.disk s.log.start) = 0
  view : ∃ v, Cached s.log.dev v s ∧ (∀ j < k, v (home j) = new j) ∧ ∀ b, (∀ j < k, b ≠ home j) → v b = s.disk b
  pinned : ∀ j < k, ∃ i, s.Has s.log.dev (home j) i ∧ 0 < s.refs i
  nonneg : ∀ b i, s.Named s.log.dev b i → s.log.Area b → 0 ≤ s.refs i

/-- The machine has started: no buffer is in use, and what is cached is on the disk. -/
structure Booted (dev : UInt32) (d : UInt32 → Block) (s : Kern) : Prop where
  image : s.image = d
  writes : s.writes = []
  cached : Cached dev d s
  refs : ∀ i ∈ s.order, s.refs i = 0
  bufs : s.order.length = nbuf

/-- The disk after any number of recoveries that were stopped. -/
inductive Crashes (dev logstart : UInt32) (nlog : Int) : (UInt32 → Block) → (UInt32 → Block) → Prop
  | none (d : UInt32 → Block) : Crashes dev logstart nlog d d
  | crash {d d' : UInt32 → Block} {s : Kern} {p : List (UInt32 × Block)} (hs : Booted dev d s)
      (hp : p <+: writesOf (initlog dev logstart nlog) s)
      (h : Crashes dev logstart nlog (applyWrites d p) d') : Crashes dev logstart nlog d d'

theorem booted_binit {dev : UInt32} (hdev : dev ≠ 0) (d : UInt32 → Block) (log : Log) :
    Booted dev d (binit d log) := by
  have hno : ∀ b i, ¬ (binit d log).Named dev b i := fun b i h => hdev h.2.1.symm
  refine ⟨rfl, rfl, ⟨?_, fun b i _ h => absurd h (hno b i), fun b i h => absurd h.1 (hno b i),
    fun b h => absurd rfl h⟩, fun _ _ => rfl, ?_⟩
  · exact nodup_reverse.mpr nodup_range
  · exact (length_reverse).trans length_range

section
variable {s s₀ : Kern} {k : Nat} {home : Nat → UInt32} {new : Nat → Block}

theorem Log.slot_area {lg : Log} (hk : (k : Int) < lg.size) {j : Nat} (hj : j < k) : lg.Area (lg.slot j) :=
  ⟨j + 1, by omega, rfl⟩

theorem Log.start_area {lg : Log} (hk : (k : Int) < lg.size) : lg.Area lg.start :=
  ⟨0, by omega, (UInt32.add_zero _).symm⟩

theorem Txn.apart (ht : Txn s k home new) : s.log.redo.Apart k home := by
  have hsmall := ht.small
  have hof : ∀ x, x ≤ 29 → (UInt32.ofNat x).toNat = x := fun x hx =>
    UInt32.toNat_ofNat_of_lt' (show x < 2 ^ 32 by omega)
  refine ⟨ht.distinct, fun i hi he => ?_, fun i hi j hj he => ?_, fun i hi j hj he => ?_, fun i hi he => ?_⟩
  · exact ht.outside i hi (he ▸ Log.start_area ht.fits)
  · exact ht.outside i hi (he ▸ Log.slot_area ht.fits hj)
  · have he := congrArg UInt32.toNat ((UInt32.add_right_inj _).mp he)
    rw [hof (i + 1) (by omega), hof (j + 1) (by omega)] at he
    omega
  · have he : s.log.start + UInt32.ofNat (i + 1) = s.log.start + 0 := he.trans (UInt32.add_zero _).symm
    have he := congrArg UInt32.toNat ((UInt32.add_right_inj _).mp he)
    rw [hof (i + 1) (by omega)] at he
    exact absurd he (Nat.succ_ne_zero i)

theorem Txn.logging (ht : Txn s k home new) (may : Prop) (hu : ¬ may → ∃ i ∈ s.order, s.refs i = 0) :
    Logging may s.log k home new (s.disk s.log.start) 0 s := by
  obtain ⟨v, hc, hhome, hrest⟩ := ht.view
  refine ⟨rfl, ⟨v, hc, hhome, fun j hj => absurd hj (Nat.not_lt_zero j), ?_⟩, fun b i hb hr => ?_, ht.pinned, hu⟩
  · exact hrest _ fun j hj => Ne.symm (ht.apart.home_head j hj)
  · rcases hr with rfl | ⟨j, hj, rfl⟩ | ⟨j, -, hj, rfl⟩
    · exact ht.nonneg _ i hb (Log.start_area ht.fits)
    · exact ht.nonneg _ i hb (Log.slot_area ht.fits hj)
    · obtain ⟨x, hx, hpos⟩ := ht.pinned j hj
      rw [hc.one _ i x hb hx.1]
      omega

/-- With a buffer to spare `commit` ends, and it has written the whole sequence. -/
theorem commit_completes (ht : Txn s k home new) (hk : 0 < k) (hu : ∃ i ∈ s.order, s.refs i = 0) :
    ∃ s', commit s = .ok () s' ∧
      s'.writes = s.writes ++ s.log.redo.commit k home new (putHead (s.disk s.log.start) s.log.lh)
        (clearHead (putHead (s.disk s.log.start) s.log.lh)) := by
  have hcount := ht.count
  obtain ⟨_, s', hrun, -, htr, -⟩ := (commit_emits ht.apart (by omega) (by omega) ht.block
    (ht.logging False fun _ => hu)).ends
  exact ⟨s', hrun, htr⟩

theorem count_clearHead {lg : Log} (b : Block) : lg.redo.count (clearHead b) = 0 := by
  show (headN (clearHead b)).toNat = 0
  rfl

theorem Txn.recoverable (ht : Txn s k home new) {p : List (UInt32 × Block)} (hp : p <+: writesOf commit s) :
    s.log.redo.Recoverable s.disk k home new (applyWrites s.disk p) := by
  have hcount := ht.count
  have hsmall := ht.small
  have hzero : s.log.redo.count (s.disk s.log.redo.head) = 0 := by
    show (headN _).toNat = 0
    rw [ht.header]
    rfl
  by_cases hk : 0 < k
  · have hem := commit_emits ht.apart (by omega) (by omega) ht.block
      (ht.logging True fun h => absurd trivial h)
    obtain ⟨q, hq, htr⟩ := hem.endState
    rw [writesOf, htr, drop_left] at hp
    refine RedoLog.Recoverable.of_commit ht.apart hzero ?_ (fun i hi => ?_) (count_clearHead _) (hp.trans hq)
    · show (headN _).toNat = k
      rw [headN_putHead (by omega) (by omega)]
      omega
    · exact (headBlock_putHead (by omega) (by omega)).trans (ht.block i hi)
  · -- an empty transaction writes nothing
    have hrun : commit s = .ok () s := by
      show (if s.log.lh.n > 0 then _ else pure PUnit.unit : K PUnit) s = _
      rw [if_neg (by omega)]
      rfl
    have hnil : p = [] := by
      rw [writesOf, endState, hrun, drop_length] at hp
      exact prefix_nil.mp hp
    rw [hnil]
    exact .inl ⟨hzero, fun _ _ => rfl, fun _ _ _ _ => rfl⟩

theorem Log.redo_congr {lg lg' : Log} (h : lg.start = lg'.start) : lg.redo = lg'.redo := by
  unfold Log.redo Log.slot
  rw [h]

theorem initlog_emits {d0 d : UInt32 → Block} {lg : Log} (hA : lg.redo.Apart k home) (hk : k ≤ 29)
    (hd : lg.redo.Recoverable d0 k home new d) {dev : UInt32} (nlog : Int) (hb : Booted dev d s₀) :
    Emits image writes False (initlog dev lg.start nlog) s₀
      (lg.redo.recover d (clearHead (d lg.start))) fun _ _ => True := by
  have hnb : ∀ {x}, x ≤ 29 → x < nbuf := fun h => Nat.lt_succ_of_le h
  -- the header names no block, or those of the transaction
  have hnamed : (headN (d lg.start)).toNat ≤ 29 ∧
      lg.redo.Apart (headN (d lg.start)).toNat (headBlock (d lg.start)) := by
    have hempty : lg.redo.count (d lg.redo.head) = 0 → (headN (d lg.start)).toNat ≤ 29 ∧
        lg.redo.Apart (headN (d lg.start)).toNat (headBlock (d lg.start)) := by
      intro h0
      rw [show (headN (d lg.start)).toNat = 0 from h0]
      exact ⟨Nat.zero_le _, fun i hi => absurd hi (Nat.not_lt_zero i), fun i hi => absurd hi (Nat.not_lt_zero i),
        fun i hi => absurd hi (Nat.not_lt_zero i), fun i hi => absurd hi (Nat.not_lt_zero i),
        fun i hi => absurd hi (Nat.not_lt_zero i)⟩
    rcases hd with hd | hd | hd
    · exact hempty hd.empty
    · rw [show (headN (d lg.start)).toNat = k from hd.count]
      have hh : ∀ i < k, headBlock (d lg.start) i = home i := hd.named
      refine ⟨hk, fun i hi j hj => ?_, fun i hi => ?_, fun i hi j hj => ?_, hA.slot_inj, hA.slot_head⟩
      · rw [hh i hi, hh j hj]
        exact hA.home_inj i hi j hj
      · rw [hh i hi]
        exact hA.home_head i hi
      · rw [hh i hi]
        exact hA.home_slot i hi j hj
    · exact hempty hd.empty
  refine seq (P := fun _ s' => s' = { s₀ with log :=
      { s₀.log with start := lg.start, size := nlog, dev := dev } })
    (of_run () _ rfl rfl (append_nil _).symm rfl) ?_
  rintro _ _ rfl
  have hredo : lg.redo = Log.redo { s₀.log with start := lg.start, size := nlog, dev := dev } :=
    Log.redo_congr rfl
  rw [hredo] at hnamed ⊢
  exact recoverFromLog_emits (hb.cached.setLog _) rfl hb.refs hb.bufs (hnb hnamed.1) hnamed.2

/-- Recoveries that are stopped leave a recoverable disk. -/
theorem Crashes.recoverable {d0 d d' : UInt32 → Block} {lg : Log} {dev : UInt32} {nlog : Int}
    (h : Crashes dev lg.start nlog d d') (hA : lg.redo.Apart k home) (hk : k ≤ 29)
    (hd : lg.redo.Recoverable d0 k home new d) : lg.redo.Recoverable d0 k home new d' := by
  induction h with
  | none d => exact hd
  | crash hs hp _ ih =>
    obtain ⟨q, hq, htr⟩ := (initlog_emits hA hk hd nlog hs).endState
    rw [writesOf, htr, drop_left] at hp
    exact ih (hd.stopped hA (count_clearHead _) (hp.trans hq))

/-- **Crash atomicity.**  The machine stops after any prefix of the writes of `commit`, and
again in any number of recoveries.  The next recovery that is not stopped ends, with all blocks
of the transaction as before or all as the transaction wrote them, the other blocks outside the
log as before, and no entries in the header. -/
theorem crashAtomicity (ht : Txn s k home new) {p : List (UInt32 × Block)}
    (hp : p <+: writesOf commit s) {d : UInt32 → Block}
    (hd : Crashes s.log.dev s.log.start s.log.size (applyWrites s.disk p) d) (hb : Booted s.log.dev d s₀) :
    ∃ s', initlog s.log.dev s.log.start s.log.size s₀ = .ok () s' ∧
      ((∀ j < k, s'.disk (home j) = s.disk (home j)) ∨ ∀ j < k, s'.disk (home j) = new j) ∧
      (∀ b, ¬ s.log.Area b → (∀ j < k, b ≠ home j) → s'.disk b = s.disk b) ∧
      headN (s'.disk s.log.start) = 0 := by
  have hrec := hd.recoverable ht.apart ht.small (ht.recoverable hp)
  obtain ⟨_, s', hrun, himage, htr, -⟩ := (initlog_emits ht.apart ht.small hrec
    s.log.size hb).ends
  have hdisk : s'.disk = applyWrites d (s.log.redo.recover d (clearHead (d s.log.start))) := by
    rw [disk, himage, htr, hb.image, hb.writes, nil_append]
  have hframe : ∀ {c}, s.log.redo.Settled s.disk k home c s'.disk → ∀ b, ¬ s.log.Area b →
      (∀ j < k, b ≠ home j) → s'.disk b = s.disk b := by
    intro c hs b hna hnh
    refine hs.frame b ?_ (fun j hj => ?_) hnh
    · rintro rfl
      exact hna (Log.start_area ht.fits)
    · rintro rfl
      exact hna (Log.slot_area ht.fits hj)
  have hset := hrec.settled ht.apart (count_clearHead (d s.log.start))
  rw [← hdisk] at hset
  refine ⟨s', hrun, hset.imp (fun h => h.homes) fun h => h.homes, ?_, ?_⟩
  · exact hset.elim hframe hframe
  · rw [hdisk]
    exact (congrArg headN RedoLog.recover_head).trans headN_clearHead

end

/-- Block `60 + j`. -/
def sampleHome (j : Nat) : UInt32 := UInt32.ofNat (60 + j)

/-- Blocks 60 and 61 have been written by a transaction, and are in the buffers 0 and 1. -/
def sampleKern : Kern :=
  { bufs := fun i =>
      if i < 2 then { valid := true, dev := 1, blockno := sampleHome i, refcnt := 1, data := fun _ => 1 }
      else { valid := false, dev := 0, blockno := 0, refcnt := 0, data := fun _ => 0 }
    order := (List.range nbuf).reverse
    log := { start := 2, size := 30, outstanding := 0, committing := true, dev := 1
             lh := { n := 2, block := sampleHome } }
    image := fun _ _ => 0
    writes := [] }

theorem sampleHome_inj : ∀ i < 2, ∀ j < 2, sampleHome i = sampleHome j → i = j := by decide

theorem sampleKern_has {j : Nat} (hj : j < 2) : sampleKern.Has 1 (sampleHome j) j ∧ 0 < sampleKern.refs j := by
  have hmem : j ∈ sampleKern.order := mem_reverse.mpr (mem_range.mpr (by unfold nbuf; omega))
  simp [Has, Named, refs, hmem, show sampleKern.bufs j = _ from if_pos hj]

theorem sampleKern_named {b : UInt32} {i : Nat} (h : sampleKern.Named 1 b i) : i < 2 ∧ b = sampleHome i := by
  obtain ⟨-, hd, hb⟩ := h
  by_cases hi : i < 2
  · rw [show sampleKern.bufs i = _ from if_pos hi] at hb
    exact ⟨hi, hb.symm⟩
  · rw [show sampleKern.bufs i = _ from if_neg hi] at hd
    exact absurd hd (by decide)

theorem sampleKern_txn : Txn sampleKern 2 sampleHome fun _ _ => 1 := by
  classical
  have hview : Cached 1 (fun b => if ∃ j < 2, b = sampleHome j then fun _ => 1 else sampleKern.disk b) sampleKern := by
    refine ⟨nodup_reverse.mpr nodup_range, fun b i j hi hj => ?_, fun b i hi => ?_, fun b hb => ?_⟩
    · obtain ⟨hi2, rfl⟩ := sampleKern_named hi
      obtain ⟨hj2, he⟩ := sampleKern_named hj
      exact sampleHome_inj i hi2 j hj2 he
    · obtain ⟨hi2, rfl⟩ := sampleKern_named hi.1
      rw [if_pos ⟨i, hi2, rfl⟩, show sampleKern.bufs i = _ from if_pos hi2]
    · by_cases hx : ∃ j < 2, b = sampleHome j
      · obtain ⟨j, hj, rfl⟩ := hx
        exact ⟨j, sampleKern_has hj⟩
      · rw [if_neg hx] at hb
        exact absurd rfl hb
  refine ⟨rfl, fun _ _ => rfl, by decide, by decide, sampleHome_inj, fun j hj => ?_, by decide,
    ⟨_, hview, fun j hj => if_pos ⟨j, hj, rfl⟩, fun b hb => if_neg fun ⟨j, hj, he⟩ => hb j hj he⟩,
    fun j hj => ⟨j, sampleKern_has hj⟩, fun b i hi _ => (sampleKern_has (sampleKern_named hi).1).2.le⟩
  -- the log has the blocks 2 to 31
  rintro ⟨x, hx, he⟩
  have hx : (x : Int) < 30 := hx
  have he := congrArg UInt32.toNat he
  rw [UInt32.toNat_add, sampleHome, UInt32.toNat_ofNat_of_lt' (show x < 2 ^ 32 by omega),
    UInt32.toNat_ofNat_of_lt' (show 60 + j < 2 ^ 32 by omega)] at he
  have he : 60 + j = (2 + x) % 4294967296 := he
  omega

theorem commit_completes_two : ∃ s', commit sampleKern = .ok () s' ∧
    s'.writes = sampleKern.writes ++ sampleKern.log.redo.commit 2 sampleHome (fun _ _ => 1)
      (putHead (sampleKern.disk sampleKern.log.start) sampleKern.log.lh)
      (clearHead (putHead (sampleKern.disk sampleKern.log.start) sampleKern.log.lh)) :=
  commit_completes sampleKern_txn Nat.two_pos ⟨2, by decide, by decide⟩

/-- The machine stops right after the header has been written. -/
theorem crashAtomicity_afterHead : Txn sampleKern 2 sampleHome (fun _ _ => 1) ∧
    ∃ s', initlog 1 2 30 (binit (applyWrites sampleKern.disk ((writesOf commit sampleKern).take 3))
          sampleKern.log) = .ok () s' ∧
      ((∀ j < 2, s'.disk (sampleHome j) = sampleKern.disk (sampleHome j)) ∨
        ∀ j < 2, s'.disk (sampleHome j) = fun _ => 1) ∧
      (∀ b, ¬ sampleKern.log.Area b → (∀ j < 2, b ≠ sampleHome j) → s'.disk b = sampleKern.disk b) ∧
      headN (s'.disk 2) = 0 := by
  have hp := take_prefix 3 (writesOf commit sampleKern)
  exact ⟨sampleKern_txn, crashAtomicity sampleKern_txn hp (.none _) (booted_binit (by decide) _ _)⟩

/-- A system call fills a block with ones. -/
def fillBlock (b : UInt32) : K Unit := do
  let i ← bread 1 b
  modify fun s => s.setData i fun _ => 1
  logWrite i
  brelse i

/-- The boot after a crash, and a transaction of `bs`. -/
def bootAndFill (bs : List UInt32) : K Unit := do
  initlog 1 2 30
  discard beginOp
  bs.forM fillBlock

/-- Sixteen blocks, the last of which is the one that `oneEntry` recovers. -/
def splitHomes : List UInt32 := (List.range 15).map (fun i => UInt32.ofNat (100 + i)) ++ [60]

/-- **The recovery takes the pin of a later transaction.**  `install_trans` unpins block 60, which nobody has pinned;
the `log_write` of it then leaves its buffer with `refcnt` 0.  Each block of the transaction is in the cache, with
ones, and the header has no entries; but `write_log` needs the buffer for the log and reads block 60 back from the
disk.  `commit` runs to its end, and so does the next recovery: fifteen blocks are new, block 60 is old. -/
theorem crash_splits :
    let s := endState (bootAndFill splitHomes) (binit oneEntry Log.zero)
    let s' := endState (initlog 1 2 30) (binit (applyWrites s.disk (writesOf commit s)) s.log)
    bootAndFill splitHomes (binit oneEntry Log.zero) = .ok () s ∧ headN (s.disk 2) = 0 ∧
      (s.log.lh.n, (List.range 16).map s.log.lh.block) = (16, splitHomes) ∧
      (∀ b ∈ splitHomes, ∃ i ∈ s.order, (s.bufs i).dev = 1 ∧ (s.bufs i).blockno = b ∧ (s.bufs i).valid = true ∧
        getByte (s.bufs i).data 0 = 1 ∧ s.refs i = if b = 60 then 0 else 1) ∧
      commit s = .ok () (endState commit s) ∧
      splitHomes.map (fun b => getByte (s.disk b) 0) = replicate 16 0 ∧
      splitHomes.map (fun b => getByte (s'.disk b) 0) = replicate 15 1 ++ [0] :=
  ⟨ok_endState (by decide +kernel), by decide +kernel, by decide +kernel,
    @of_decide_eq_true _ (decidableBAll ..) (by decide +kernel), ok_endState (by decide +kernel),
    by decide +kernel, by decide +kernel⟩

end InternetOs.Fs
