import InternetOs.Lib.DSeg
import InternetOs.Net.Conn
import InternetOs.Net.Socket

/-!
# The buckets of the socket tables

`Stack.Lists n L`: bucket `i` of table `t` is the doubly linked list `L t i` of allocated
blocks of that type and port.  The walks of `add_sock_cb` and `get_sock_cb` end on such
lists; linking a block that is in none, and unlinking one that is in its own, keeps them.

    addSockCb n p:  q ∈ L' t i ↔ q ∈ L t i ∨ q = p, last in the bucket of p (addSockCb_lists)
    unlinkScb n p:  q ∈ L' t i ↔ q ∈ L t i ∧ q ≠ p                         (unlinkScb_lists)
-/

namespace InternetOs.Net

open SockCbState Function List Option Stack

/-! ## What the protocol leaves of a block -/

theorem tcpFlush_frame (fuel : Nat) : ∀ c c' : Conn, tcpFlush fuel c = some c' →
    ∃ txq snd, c'.scb = { c.scb with txq := txq, snd := snd } := by
  induction fuel with
  | zero =>
    intro c c' h
    cases h
  | succ fuel ih =>
    intro c c' h
    simp only [tcpFlush] at h
    split at h
    · cases h
      exact ⟨_, _, rfl⟩
    · obtain ⟨txq, snd, hscb⟩ := ih _ _ h
      exact ⟨txq, snd, hscb⟩

theorem tcpSend_frame {c : Conn} {m : Nat} {flg : UInt8} {r : Conn × Int} (h : tcpSend c m flg = some r) :
    ∃ st txq snd, r.1.scb = { c.scb with state := st, txq := txq, snd := snd } := by
  unfold tcpSend at h
  split at h
  · cases h
    exact ⟨_, _, _, rfl⟩
  · split at h
    · split at h <;> cases h <;> exact ⟨_, _, _, rfl⟩
    · cases h
      exact ⟨_, _, _, rfl⟩
    · cases h
      exact ⟨_, _, _, rfl⟩
    · obtain ⟨c1, hc, heq⟩ := map_eq_some_iff.mp h
      cases heq
      obtain ⟨txq, snd, hscb⟩ := tcpFlush_frame _ _ _ hc
      exact ⟨c.scb.state, txq, snd, hscb⟩
    · cases h
      exact ⟨_, _, _, rfl⟩

theorem tcpClose_frame (c : Conn) :
    ∃ st txq snd, (tcpClose c).1.scb = { c.scb with state := st, txq := txq, snd := snd } := by
  obtain ⟨c', v, hclose, hout⟩ := tcpClose_outcome c
  rw [hclose]
  cases hout with
  | done | fin | queued => exact ⟨_, _, _, rfl⟩

/-- The fields the tables depend on. -/
structure SockCb.SameLinks (a b : SockCb) : Prop where
  socktype : b.socktype = a.socktype
  bucket : b.bucket = a.bucket
  prev : b.prev = a.prev
  next : b.next = a.next

theorem SockCb.SameLinks.refl (a : SockCb) : a.SameLinks a := ⟨rfl, rfl, rfl, rfl⟩

theorem tcpSend_links {c c' : Conn} {m : Nat} {flg : UInt8} {r : Int}
    (h : tcpSend c m flg = some (c', r)) : c.scb.SameLinks c'.scb ∧ c'.scb.dport = c.scb.dport := by
  obtain ⟨st, txq, snd, hscb⟩ := tcpSend_frame h
  rw [show c'.scb = _ from hscb]
  exact ⟨⟨rfl, rfl, rfl, rfl⟩, rfl⟩

theorem tcpClose_links (c : Conn) :
    c.scb.SameLinks (tcpClose c).1.scb ∧ (tcpClose c).1.scb.dport = c.scb.dport := by
  obtain ⟨st, txq, snd, hscb⟩ := tcpClose_frame c
  rw [hscb]
  exact ⟨⟨rfl, rfl, rfl, rfl⟩, rfl⟩

/-- `tcp_recv` changes the remote port of a listening block only. -/
theorem tcpRecvSwitch_links (c : Conn) (m : Nat) (len : UInt16) (raddr : UInt32) (dport : UInt16) :
    c.scb.SameLinks (tcpRecvSwitch c m len raddr dport).1.scb ∧ ((tcpRecvSwitch c m len raddr dport).2 = true →
        (tcpRecvSwitch c m len raddr dport).1.scb.dport = c.scb.dport) := by
  obtain ⟨st, snd, rcv, rxq, ra, dp, hscb, hpeer⟩ := (tcpRecvSwitch_frame c m len raddr dport).scb
  rw [hscb]
  refine ⟨⟨rfl, rfl, rfl, rfl⟩, fun hf => ?_⟩
  rcases hpeer with ⟨-, hdp⟩ | ⟨-, -, hf'⟩
  · exact hdp
  · rw [hf] at hf'
    cases hf'

/-- What a connection never writes: the fields that say where the block belongs. -/
structure SockCb.SameHome (a b : SockCb) : Prop where
  f : b.f = a.f
  socktype : b.socktype = a.socktype
  acptScb : b.acptScb = a.acptScb
  sport : b.sport = a.sport

theorem tcpSend_home {c : Conn} {m : Nat} {flg : UInt8} {r : Conn × Int} (h : tcpSend c m flg = some r) :
    c.scb.SameHome r.1.scb := by
  obtain ⟨st, txq, snd, hscb⟩ := tcpSend_frame h
  rw [hscb]
  exact ⟨rfl, rfl, rfl, rfl⟩

theorem tcpClose_home (c : Conn) : c.scb.SameHome (tcpClose c).1.scb := by
  obtain ⟨st, txq, snd, hscb⟩ := tcpClose_frame c
  rw [hscb]
  exact ⟨rfl, rfl, rfl, rfl⟩

theorem tcpRecvSwitch_home (c : Conn) (m : Nat) (len : UInt16) (raddr : UInt32) (dport : UInt16) :
    c.scb.SameHome (tcpRecvSwitch c m len raddr dport).1.scb := by
  obtain ⟨st, snd, rcv, rxq, ra, dp, hscb, -⟩ := (tcpRecvSwitch_frame c m len raddr dport).scb
  rw [hscb]
  exact ⟨rfl, rfl, rfl, rfl⟩

/-! ## The lists -/

def Stack.next (n : Stack) (p : Nat) : Nat := (n.scbs p).next

def Stack.prev (n : Stack) (p : Nat) : Nat := (n.scbs p).prev

theorem Stack.usable_of_some {α : Type} {n : Stack} {p : Nat} {o : Option α} {r : α}
    (h : (if n.usable p then o else none) = some r) : n.alive p = true ∧ o = some r := by
  split at h
  · next hu =>
    exact ⟨(Bool.and_eq_true _ _ ▸ hu).1, h⟩
  · cases h

/-- Bucket `i` of table `t` is the list `L t i`. -/
structure Stack.Lists (n : Stack) (L : Tab → Nat → List Nat) : Prop where
  chain : ∀ t i, ∃ b, DSeg n.next n.prev 0 (n.table t i) (L t i) b 0
  nodup : ∀ t i, (L t i).Nodup
  mem : ∀ t i, ∀ p ∈ L t i, n.alive p = true ∧ (n.scbs p).socktype.tab = t ∧ (n.scbs p).bucket = i
  fresh : ∀ p, n.alive p = true → p ≠ 0 ∧ p < n.brkScb

section
variable {n n' : Stack} {L L' : Tab → Nat → List Nat} {p : Nat}

theorem Stack.Lists.ne_zero (h : n.Lists L) {t : Tab} {i : Nat} : ∀ q ∈ L t i, q ≠ 0 :=
  fun q hq => (h.fresh q (h.mem t i q hq).1).1

theorem Stack.Lists.once (h : n.Lists L) {t t' : Tab} {i i' : Nat} (hp : p ∈ L t i)
    (hp' : p ∈ L t' i') : t = t' ∧ i = i' := by
  obtain ⟨-, h1, h2⟩ := h.mem t i p hp
  obtain ⟨-, h1', h2'⟩ := h.mem t' i' p hp'
  exact ⟨h1.symm.trans h1', h2.symm.trans h2'⟩

theorem Stack.Lists.length_lt (h : n.Lists L) (hb : 0 < n.brkScb) (t : Tab) (i : Nat) : (L t i).length < n.brkScb :=
  length_lt_of_nodup hb (h.nodup t i) fun x hx => ⟨h.ne_zero x hx, (h.fresh x (h.mem t i x hx).1).2⟩

theorem Stack.lastScb_spec {t : Nat} {l : List Nat} {a b q fuel : Nat}
    (h : DSeg n.next n.prev a q (l ++ [t]) b 0) (ha : ∀ x ∈ l ++ [t], n.alive x = true ∧ x ≠ 0)
    (hf : l.length < fuel) : n.lastScb fuel q = some t := by
  induction l generalizing a q fuel with
  | nil =>
    obtain ⟨rfl, -, -, hn⟩ := h
    obtain ⟨fuel, rfl⟩ : ∃ k, fuel = k + 1 := ⟨fuel - 1, by simp at hf; omega⟩
    have hn : (n.scbs q).next = 0 := hn.symm
    simp [lastScb, (ha q (by simp)).1, hn]
  | cons x l ih =>
    obtain ⟨rfl, -, hl⟩ := h
    obtain ⟨fuel, rfl⟩ : ∃ k, fuel = k + 1 := ⟨fuel - 1, by simp at hf; omega⟩
    have hne : (n.scbs q).next ≠ 0 := by
      cases l with
      | nil => rw [show (n.scbs q).next = t from hl.1]; exact (ha t (by simp)).2
      | cons y l => rw [show (n.scbs q).next = y from hl.1]; exact (ha y (by simp)).2
    have hrec := ih hl (fun y hy => ha y (mem_cons_of_mem q hy)) (by simp at hf; omega)
    simp only [lastScb, (ha q (by simp)).1, if_neg hne]
    exact hrec

/-- `get_sock_cb` ends, at the end of the bucket or at its first block that takes the segment. -/
theorem Stack.findScb_spec {sport : UInt16} {raddr : UInt32} {dport : UInt16} {l : List Nat}
    {a b q fuel : Nat} (h : DSeg n.next n.prev a q l b 0)
    (ha : ∀ x ∈ l, n.alive x = true ∧ x ≠ 0) (hf : l.length < fuel) :
    ∃ r, n.findScb sport raddr dport fuel q = some r ∧
      (r = 0 ∧ (∀ x ∈ l, (n.scbs x).takes sport raddr dport = false) ∨
        ∃ l1 l2, l = l1 ++ r :: l2 ∧ (n.scbs r).takes sport raddr dport = true ∧
          ∀ x ∈ l1, (n.scbs x).takes sport raddr dport = false) := by
  induction l generalizing a q fuel with
  | nil =>
    obtain ⟨fuel, rfl⟩ : ∃ k, fuel = k + 1 := ⟨fuel - 1, by simp at hf; omega⟩
    exact ⟨0, by simp [findScb, ← h.2], .inl ⟨rfl, fun x hx => absurd hx not_mem_nil⟩⟩
  | cons x l ih =>
    obtain ⟨rfl, -, hl⟩ := h
    obtain ⟨fuel, rfl⟩ : ∃ k, fuel = k + 1 := ⟨fuel - 1, by simp at hf; omega⟩
    obtain ⟨hal, h0⟩ := ha q mem_cons_self
    by_cases ht : (n.scbs q).takes sport raddr dport = true
    · exact ⟨q, by simp [findScb, h0, hal, ht], .inr ⟨[], l, rfl, ht, fun x hx => absurd hx not_mem_nil⟩⟩
    · obtain ⟨r, hr, hm⟩ := ih hl (fun y hy => ha y (mem_cons_of_mem q hy))
        (by simp at hf; omega)
      have ht' : (n.scbs q).takes sport raddr dport = false := by simpa using ht
      refine ⟨r, ?_, ?_⟩
      · simp only [findScb, if_neg h0, hal, if_neg ht]
        exact hr
      · rcases hm with ⟨hr0, hall⟩ | ⟨l1, l2, rfl, htk, hall⟩
        · exact .inl ⟨hr0, forall_mem_cons.mpr ⟨ht', hall⟩⟩
        · exact .inr ⟨q :: l1, l2, rfl, htk, forall_mem_cons.mpr ⟨ht', hall⟩⟩

theorem findScb_alive {sport : UInt16} {raddr : UInt32} {dport : UInt16} {fuel q : Nat}
    (h : n.findScb sport raddr dport fuel q = some p) (hp : p ≠ 0) : n.alive p = true := by
  induction fuel generalizing q with
  | zero => cases h
  | succ fuel ih =>
    simp only [findScb] at h
    split at h
    · exact absurd (some.inj h).symm hp
    · split at h
      · next hq =>
        split at h
        · exact some.inj h ▸ hq
        · exact ih h
      · cases h

theorem getSockCb_first (h : n.Lists L) (hb : 0 < n.brkScb) (t : Tab) (sport : UInt16)
    (raddr : UInt32) (dport : UInt16) : ∃ r, getSockCb n t sport raddr dport = some r ∧
      (r = 0 ∧ (∀ x ∈ L t (sport.toNat % sockCbLen), (n.scbs x).takes sport raddr dport = false) ∨
        ∃ l1 l2, L t (sport.toNat % sockCbLen) = l1 ++ r :: l2 ∧ (n.scbs r).takes sport raddr dport = true ∧
          ∀ x ∈ l1, (n.scbs x).takes sport raddr dport = false) := by
  obtain ⟨b, hc⟩ := h.chain t (sport.toNat % sockCbLen)
  exact findScb_spec hc (fun x hx => ⟨(h.mem _ _ x hx).1, h.ne_zero x hx⟩)
    (Nat.lt_succ_of_lt (h.length_lt hb _ _))

theorem getSockCb_spec (h : n.Lists L) (hb : 0 < n.brkScb) (t : Tab) (sport : UInt16)
    (raddr : UInt32) (dport : UInt16) : ∃ r, getSockCb n t sport raddr dport = some r ∧
      (r = 0 ∨ r ∈ L t (sport.toNat % sockCbLen) ∧ (n.scbs r).takes sport raddr dport = true) := by
  obtain ⟨r, hr, hfirst⟩ := getSockCb_first h hb t sport raddr dport
  refine ⟨r, hr, ?_⟩
  rcases hfirst with ⟨h0, -⟩ | ⟨l1, l2, hl, ht, -⟩
  · exact .inl h0
  · exact .inr ⟨by rw [hl]; simp, ht⟩

end

/-! ## Linking and unlinking -/

/-- A relation between stacks that writing a link or a bucket head keeps. -/
structure LinkClosed (R : Stack → Stack → Prop) : Prop where
  refl : ∀ n, R n n
  trans : ∀ {n n' n''}, R n n' → R n' n'' → R n n''
  next : ∀ n p q, R n (n.setScbNext p q)
  prev : ∀ n p q, R n (n.setScbPrev p q)
  head : ∀ n t i p, R n (n.setHead t i p)

section
variable {R : Stack → Stack → Prop} {n n' : Stack} {p : Nat}

theorem LinkClosed.addSockCb (h : LinkClosed R) (hs : addSockCb n p = some n') : R n n' := by
  unfold Net.addSockCb at hs
  dsimp only at hs
  split at hs
  · cases hs
    exact h.trans (h.head n _ _ p) (h.trans (h.prev _ p 0) (h.next _ p 0))
  · obtain ⟨tail, -, rfl⟩ := map_eq_some_iff.mp hs
    exact h.trans (h.next n tail p) (h.trans (h.prev _ p tail) (h.next _ p 0))

theorem LinkClosed.unlinkScb (h : LinkClosed R) (hs : unlinkScb n p = some n') : R n n' := by
  unfold Net.unlinkScb at hs
  dsimp only at hs
  split at hs
  · cases hs
  · have h1 : R n (if (n.scbs p).next ≠ 0 then n.setScbPrev (n.scbs p).next (n.scbs p).prev else n) := by
      split
      · exact h.prev n _ _
      · exact h.refl n
    generalize (if (n.scbs p).next ≠ 0 then n.setScbPrev (n.scbs p).next (n.scbs p).prev else n) = n1 at hs h1
    split at hs
    · split at hs
      · cases hs
        exact h.trans h1 (h.next n1 _ _)
      · cases hs
    · cases hs
      exact h.trans h1 (h.head n1 _ _ _)

theorem update_false_iff {alive : Nat → Bool} {p q : Nat} :
    update alive p false q = true ↔ q ≠ p ∧ alive q = true := by
  by_cases h : q = p
  · simp [h]
  · simp [h]

theorem LinkClosed.freeSockCb (h : LinkClosed R) (hs : freeSockCb n p = some n') :
    ∃ n1, R (releaseSport n (n.scbs p).sport) n1 ∧ n' = { n1 with alive := update n1.alive p false } := by
  obtain ⟨n1, h1, rfl⟩ := map_eq_some_iff.mp hs
  refine ⟨n1, ?_, rfl⟩
  split at h1
  · exact h.unlinkScb h1
  · cases h1
    exact h.refl _

end

/-- `b` is `a` with other links. -/
def SockCb.SameButLinks (a b : SockCb) : Prop := b = { a with prev := b.prev, next := b.next }

/-- The stack `n'` is `n` with other links and bucket heads. -/
structure Stack.Relinked (n n' : Stack) : Prop where
  scbs : ∀ q, (n.scbs q).SameButLinks (n'.scbs q)
  alive : n'.alive = n.alive
  brkScb : n'.brkScb = n.brkScb
  hist : n'.hist = n.hist

section
variable {n n' n'' : Stack} {L : Tab → Nat → List Nat} {p q t i : Nat}

theorem Stack.Relinked.refl (n : Stack) : n.Relinked n := ⟨fun _ => rfl, rfl, rfl, rfl⟩

theorem Stack.Relinked.trans (h : n.Relinked n') (h' : n'.Relinked n'') : n.Relinked n'' := by
  refine ⟨fun q => ?_, h'.alive.trans h.alive, h'.brkScb.trans h.brkScb, h'.hist.trans h.hist⟩
  have h1 := h.scbs q
  have h2 := h'.scbs q
  unfold SockCb.SameButLinks at h1 h2 ⊢
  rw [h2, h1]

theorem Stack.relinked_setScbNext (n : Stack) (p q : Nat) : n.Relinked (n.setScbNext p q) := by
  refine ⟨fun x => ?_, rfl, rfl, rfl⟩
  unfold Stack.setScbNext Stack.setScb SockCb.SameButLinks
  by_cases hx : x = p
  · subst hx
    simp
  · simp [hx]

theorem Stack.relinked_setScbPrev (n : Stack) (p q : Nat) : n.Relinked (n.setScbPrev p q) := by
  refine ⟨fun x => ?_, rfl, rfl, rfl⟩
  unfold Stack.setScbPrev Stack.setScb SockCb.SameButLinks
  by_cases hx : x = p
  · subst hx
    simp
  · simp [hx]

theorem Stack.relinked_setHead (n : Stack) (t : Tab) (i p : Nat) : n.Relinked (n.setHead t i p) :=
  ⟨fun _ => rfl, rfl, rfl, rfl⟩

theorem Stack.Relinked.socktype (h : n.Relinked n') (q : Nat) : (n'.scbs q).socktype = (n.scbs q).socktype := by
  rw [h.scbs q]

theorem Stack.Relinked.bucket (h : n.Relinked n') (q : Nat) : (n'.scbs q).bucket = (n.scbs q).bucket := by
  rw [h.scbs q]
  rfl

theorem Stack.Relinked.dport (h : n.Relinked n') (q : Nat) : (n'.scbs q).dport = (n.scbs q).dport := by
  rw [h.scbs q]

theorem getNewSport_frame {r : Stack × UInt16} (hr : getNewSport n = some r) :
    r.1.scbs = n.scbs ∧ r.1.alive = n.alive ∧ r.1.brkScb = n.brkScb ∧ r.1.table = n.table ∧ r.1.hist = n.hist := by
  obtain ⟨x, -, rfl⟩ := map_eq_some_iff.mp hr
  exact ⟨rfl, rfl, rfl, rfl, rfl⟩

@[simp] theorem next_setScbNext (n : Stack) (p q : Nat) : (n.setScbNext p q).next = update n.next p q := by
  funext x
  by_cases hx : x = p
  · subst hx
    simp [Stack.next, Stack.setScbNext]
  · simp [Stack.next, Stack.setScbNext, hx]

@[simp] theorem prev_setScbNext (n : Stack) (p q : Nat) : (n.setScbNext p q).prev = n.prev := by
  funext x
  by_cases hx : x = p
  · subst hx
    simp [Stack.prev, Stack.setScbNext]
  · simp [Stack.prev, Stack.setScbNext, hx]

@[simp] theorem next_setScbPrev (n : Stack) (p q : Nat) : (n.setScbPrev p q).next = n.next := by
  funext x
  by_cases hx : x = p
  · subst hx
    simp [Stack.next, Stack.setScbPrev]
  · simp [Stack.next, Stack.setScbPrev, hx]

@[simp] theorem prev_setScbPrev (n : Stack) (p q : Nat) : (n.setScbPrev p q).prev = update n.prev p q := by
  funext x
  by_cases hx : x = p
  · subst hx
    simp [Stack.prev, Stack.setScbPrev]
  · simp [Stack.prev, Stack.setScbPrev, hx]

@[simp] theorem next_setHead (n : Stack) (t : Tab) (i p : Nat) : (n.setHead t i p).next = n.next := rfl

@[simp] theorem prev_setHead (n : Stack) (t : Tab) (i p : Nat) : (n.setHead t i p).prev = n.prev := rfl

@[simp] theorem table_setScbNext (n : Stack) (p q : Nat) : (n.setScbNext p q).table = n.table := rfl

@[simp] theorem table_setScbPrev (n : Stack) (p q : Nat) : (n.setScbPrev p q).table = n.table := rfl

theorem Stack.Lists.relink (h : n.Lists L) (hr : n.Relinked n') {t : Tab} {i : Nat} {l : List Nat}
    (hl : ∃ b, DSeg n'.next n'.prev 0 (n'.table t i) l b 0) (hnd : l.Nodup)
    (hmem : ∀ q ∈ l, n.alive q = true ∧ (n.scbs q).socktype.tab = t ∧ (n.scbs q).bucket = i)
    (hhead : ∀ t' i', (t', i') ≠ (t, i) → n'.table t' i' = n.table t' i')
    (hother : ∀ t' i', (t', i') ≠ (t, i) → ∀ q ∈ L t' i', n'.next q = n.next q ∧ n'.prev q = n.prev q) :
    n'.Lists (fun t' i' => if (t', i') = (t, i) then l else L t' i') := by
  refine ⟨fun t' i' => ?_, fun t' i' => ?_, fun t' i' q hq => ?_, fun q hq => ?_⟩
  · by_cases hti : (t', i') = (t, i)
    · rw [if_pos hti]
      cases hti
      exact hl
    · rw [if_neg hti, hhead t' i' hti]
      obtain ⟨b, hb⟩ := h.chain t' i'
      exact ⟨b, hb.congr (hother t' i' hti)⟩
  · by_cases hti : (t', i') = (t, i)
    · rw [if_pos hti]
      exact hnd
    · rw [if_neg hti]
      exact h.nodup t' i'
  · have hq' : n.alive q = true ∧ (n.scbs q).socktype.tab = t' ∧ (n.scbs q).bucket = i' := by
      by_cases hti : (t', i') = (t, i)
      · rw [if_pos hti] at hq
        cases hti
        exact hmem q hq
      · rw [if_neg hti] at hq
        exact h.mem t' i' q hq
    rw [hr.alive, hr.socktype, hr.bucket]
    exact hq'
  · rw [hr.alive] at hq
    rw [hr.brkScb]
    exact h.fresh q hq

/-- **`add_sock_cb` of a block that is in no bucket** puts it last in its own. -/
theorem addSockCb_lists (h : n.Lists L) (hb : 0 < n.brkScb) (hp : n.alive p = true) (hnot : ∀ t i, p ∉ L t i) :
    ∃ n' L', addSockCb n p = some n' ∧ n'.Lists L' ∧ n.Relinked n' ∧ (∀ t i q, q ∈ L' t i ↔
        q ∈ L t i ∨ (q = p ∧ t = (n.scbs p).socktype.tab ∧ i = (n.scbs p).bucket)) ∧
      ∀ t i, (L' t i).Sublist (L t i ++ [p]) := by
  obtain ⟨t, ht⟩ : ∃ t, (n.scbs p).socktype.tab = t := ⟨_, rfl⟩
  obtain ⟨i, hi⟩ : ∃ i, (n.scbs p).bucket = i := ⟨_, rfl⟩
  obtain ⟨b, hc⟩ := h.chain t i
  have hmem : ∀ q ∈ L t i ++ [p], n.alive q = true ∧ (n.scbs q).socktype.tab = t ∧ (n.scbs q).bucket = i := by
    intro q hq
    rcases mem_append.mp hq with hq | hq
    · exact h.mem t i q hq
    · rw [List.mem_singleton.mp hq]
      exact ⟨hp, ht, hi⟩
  have hnd : (L t i ++ [p]).Nodup := by
    rw [nodup_append]
    refine ⟨h.nodup t i, nodup_singleton p, fun x hx y hy => ?_⟩
    rw [List.mem_singleton.mp hy]
    rintro rfl
    exact hnot t i hx
  have hiff : ∀ t' i' q, q ∈ (fun t' i' => if (t', i') = (t, i) then L t i ++ [p] else L t' i') t' i' ↔
      q ∈ L t' i' ∨ (q = p ∧ t' = t ∧ i' = i) := by
    intro t' i' q
    by_cases hti : (t', i') = (t, i)
    · cases hti
      simp
    · rw [Prod.mk.injEq] at hti
      simp [hti]
  have hsub : ∀ t' i', ((fun t' i' => if (t', i') = (t, i) then L t i ++ [p] else L t' i') t' i').Sublist
      (L t' i' ++ [p]) := by
    intro t' i'
    by_cases hti : (t', i') = (t, i)
    · cases hti
      simp
    · simp only [if_neg hti]
      exact sublist_append_left _ _
  unfold addSockCb
  rw [ht, hi]
  by_cases hhd : n.table t i = 0
  · rw [if_pos hhd]
    have hnil : L t i = [] := by
      cases hl : L t i with
      | nil => rfl
      | cons x l =>
        rw [hl, hhd] at hc
        exact absurd hc.1.symm (h.ne_zero x (by rw [hl]; exact mem_cons_self))
    have hr : n.Relinked (((n.setHead t i p).setScbPrev p 0).setScbNext p 0) :=
      (relinked_setHead n t i p).trans
        ((relinked_setScbPrev _ p 0).trans (relinked_setScbNext _ p 0))
    refine ⟨_, _, rfl, h.relink hr (t := t) (i := i) ?_ hnd hmem ?_ ?_, hr, hiff, hsub⟩
    · refine ⟨p, ?_⟩
      rw [hnil]
      simp [DSeg, setHead]
    · intro t' i' hne
      rw [ne_eq, Prod.mk.injEq, not_and] at hne
      by_cases hti : t' = t
      · subst hti
        simp [setHead, hne rfl]
      · simp [setHead, hti]
    · intro t' i' _ q hq
      have hqp : q ≠ p := by
        rintro rfl
        exact hnot t' i' hq
      simp [hqp]
  · rw [if_neg hhd]
    obtain ⟨l0, tl, hl⟩ : ∃ l0 tl, L t i = l0 ++ [tl] := by
      rcases eq_nil_or_concat' (L t i) with hl | ⟨l0, tl, hl⟩
      · rw [hl] at hc
        exact absurd hc.2.symm hhd
      · exact ⟨l0, tl, hl⟩
    have hlast : n.lastScb n.brkScb (n.table t i) = some tl := by
      have hlen := h.length_lt hb t i
      rw [hl] at hc hlen
      refine lastScb_spec hc (fun x hx => ?_) (by simp at hlen; omega)
      rw [← hl] at hx
      exact ⟨(h.mem t i x hx).1, h.ne_zero x hx⟩
    rw [hlast]
    have htl : tl ∈ L t i := by
      rw [hl]
      exact mem_append_right _ mem_cons_self
    have hptl : p ≠ tl := by
      rintro rfl
      exact hnot t i htl
    have hr : n.Relinked (((n.setScbNext tl p).setScbPrev p tl).setScbNext p 0) :=
      (relinked_setScbNext n tl p).trans
        ((relinked_setScbPrev _ p tl).trans (relinked_setScbNext _ p 0))
    refine ⟨_, _, rfl, h.relink hr (t := t) (i := i) ?_ hnd hmem (fun _ _ _ => rfl) ?_, hr, hiff, hsub⟩
    · refine ⟨p, DSeg.append_iff.mpr ⟨tl, p, ?_, by simp [DSeg]⟩⟩
      have hnd' := h.nodup t i
      rw [hl] at hc hnd' ⊢
      have hne : ∀ y ∈ l0 ++ [tl], y ≠ p := by
        rintro y hy rfl
        exact hnot t i (by rw [hl]; exact hy)
      refine hc.setEnd (by simp [Ne.symm hptl]) (fun y hy => ?_) (fun y hy => by simp [hne y hy])
      have hytl : y ≠ tl := by
        rintro rfl
        exact (nodup_append.mp hnd').2.2 y hy y mem_cons_self rfl
      simp [hne y (mem_append_left _ hy), hytl]
    · intro t' i' hti q hq
      have hqp : q ≠ p := by
        rintro rfl
        exact hnot t' i' hq
      have hqtl : q ≠ tl := by
        rintro rfl
        obtain ⟨rfl, rfl⟩ := h.once hq htl
        exact hti rfl
      simp [hqp, hqtl]

theorem unlinkScb_spec (hp : p ≠ 0) (hnx : n.next p ≠ 0 → n.alive (n.next p) = true)
    (hpv : n.prev p ≠ 0 → n.alive (n.prev p) = true) (hne : n.next p ≠ p) :
    ∃ n', unlinkScb n p = some n' ∧ n.Relinked n' ∧
      (∀ y, y ≠ 0 → n'.next y = if y = n.prev p then n.next p else n.next y) ∧
      (∀ y, y ≠ 0 → n'.prev y = if y = n.next p then n.prev p else n.prev y) ∧
      n'.table = if n.prev p = 0 then
        (n.setHead (n.scbs p).socktype.tab (n.scbs p).bucket (n.next p)).table else n.table := by
  -- after the first write the links of `p` itself are as before
  obtain ⟨n1, hn1, hr, hnext, hprev, htab⟩ : ∃ n1,
      (if (n.scbs p).next ≠ 0 then n.setScbPrev (n.scbs p).next (n.scbs p).prev else n) = n1 ∧
      n.Relinked n1 ∧ n1.next = n.next ∧
      (∀ y, y ≠ 0 → n1.prev y = if y = n.next p then n.prev p else n.prev y) ∧ n1.table = n.table := by
    by_cases h0 : n.next p = 0
    · refine ⟨n, if_neg (not_not.mpr h0), .refl n, rfl, fun y hy => ?_, rfl⟩
      rw [if_neg (by rw [h0]; exact hy)]
    · refine ⟨_, if_pos h0, relinked_setScbPrev _ _ _, next_setScbPrev _ _ _, fun y _ => ?_, rfl⟩
      rw [prev_setScbPrev, update_apply]
      rfl
  have hp0 : (n1.scbs p).prev = n.prev p := (hprev p hp).trans (if_neg (Ne.symm hne))
  have hpn : (n1.scbs p).next = n.next p := congrFun hnext p
  have hgo : ¬ ((n.scbs p).next ≠ 0 ∧ n.alive (n.scbs p).next = false) := by
    rintro ⟨h1, h2⟩
    have h3 : n.alive (n.scbs p).next = true := hnx h1
    rw [h3] at h2
    cases h2
  unfold unlinkScb
  dsimp only
  rw [if_neg hgo, hn1, hp0, hpn]
  by_cases h0 : n.prev p = 0
  · rw [if_neg (not_not.mpr h0), if_pos h0]
    refine ⟨_, rfl, hr.trans (relinked_setHead _ _ _ _), fun y hy => ?_, hprev, ?_⟩
    · rw [next_setHead, hnext, if_neg (by rw [h0]; exact hy)]
    · simp only [setHead, htab]
  · rw [if_pos h0, if_neg h0, hr.alive, if_pos (hpv h0)]
    refine ⟨_, rfl, hr.trans (relinked_setScbNext _ _ _), fun y _ => ?_, fun y hy => ?_, htab⟩
    · rw [next_setScbNext, hnext, update_apply]
    · rw [prev_setScbNext]
      exact hprev y hy

/-- **Unlinking a block of a bucket** takes just that block out of it. -/
theorem unlinkScb_lists (h : n.Lists L) {t : Tab} {i : Nat} (hp : p ∈ L t i) :
    ∃ n' L', unlinkScb n p = some n' ∧ n'.Lists L' ∧ n.Relinked n' ∧
      (∀ t i q, q ∈ L' t i ↔ q ∈ L t i ∧ q ≠ p) ∧ ∀ t i, (L' t i).Sublist (L t i) := by
  obtain ⟨hal, ht, hi⟩ := h.mem t i p hp
  obtain ⟨b, hc⟩ := h.chain t i
  have hnd := h.nodup t i
  obtain ⟨l1, l2, hl⟩ := append_of_mem hp
  have hmem : ∀ y ∈ l1 ++ p :: l2, y ∈ L t i := fun y hy => hl ▸ hy
  rw [hl] at hc
  obtain ⟨hpv, hnx⟩ := hc.neighbours
  have hmem1 : ∀ y ∈ l1, y ∈ L t i := fun y hy => hmem y (mem_append_left _ hy)
  have hmem2 : ∀ y ∈ l2, y ∈ L t i := fun y hy => hmem y (mem_append_right _ (mem_cons_of_mem p hy))
  have hpt : n.prev p = 0 ↔ l1 = [] := by
    constructor
    · intro h0
      rcases hpv with hpv | hpv
      · exact hpv.2
      · exact absurd h0 (h.ne_zero _ (hmem1 _ hpv))
    · rintro rfl
      exact hc.2.1
  have herase : l1 ++ l2 = (L t i).erase p := by
    rw [hl] at hnd ⊢
    rw [erase_append_right _ (disjoint_right.mp (disjoint_of_nodup_append hnd) mem_cons_self), erase_cons_head]
  have hnot : p ∉ l1 ++ l2 := herase ▸ hnd.not_mem_erase
  obtain ⟨n', heq, hr, hnext, hprev, htab⟩ := unlinkScb_spec (n := n) (h.ne_zero p hp)
    (fun h0 => (h.mem t i _ (hmem2 _ (hnx.resolve_left fun e => h0 e.1))).1)
    (fun h0 => (h.mem t i _ (hmem1 _ (hpv.resolve_left fun e => h0 e.1))).1)
    (by
      intro e
      rcases hnx with hnx | hnx
      · exact h.ne_zero p hp (e.symm.trans hnx.1)
      · exact hnot (mem_append_right _ (e ▸ hnx)))
  rw [ht, hi] at htab
  refine ⟨n', _, heq, h.relink hr (t := t) (i := i) (l := l1 ++ l2) ?_ (herase ▸ hnd.erase p) ?_ ?_ ?_, hr, ?_, ?_⟩
  · have hhead : n'.table t i = if l1 = [] then n.next p else n.table t i := by
      rw [htab]
      by_cases h0 : l1 = []
      · rw [if_pos (hpt.mpr h0), if_pos h0]
        simp [setHead]
      · rw [if_neg (fun e => h0 (hpt.mp e)), if_neg h0]
    rw [hhead]
    exact ⟨_, hc.unlink _ _ (fun y hy => h.ne_zero y (hmem y hy)) (hl ▸ hnd) hnext hprev⟩
  · rw [herase]
    exact fun q hq => h.mem t i q (mem_of_mem_erase hq)
  · intro t' i' hne
    rw [htab]
    split
    · rw [ne_eq, Prod.mk.injEq, not_and] at hne
      by_cases hti : t' = t
      · subst hti
        simp [setHead, hne rfl]
      · simp [setHead, hti]
    · rfl
  · intro t' i' hne q hq
    have hq0 := h.ne_zero q hq
    obtain ⟨h1, h2⟩ := hc.not_neighbour (fun hm => by
      obtain ⟨rfl, rfl⟩ := h.once hq (hmem q hm)
      exact hne rfl) hq0
    rw [hnext q hq0, hprev q hq0, if_neg h1, if_neg h2]
    exact ⟨rfl, rfl⟩
  · intro t' i' q
    by_cases hti : (t', i') = (t, i)
    · cases hti
      rw [if_pos rfl, herase, hnd.mem_erase_iff, and_comm]
    · rw [if_neg hti]
      refine ⟨fun hq => ⟨hq, ?_⟩, And.left⟩
      rintro rfl
      obtain ⟨rfl, rfl⟩ := h.once hq hp
      exact hti rfl
  · intro t' i'
    split
    · next hti =>
      cases hti
      rw [herase]
      exact erase_sublist
    · exact .refl _

end

/-- What an arriving segment does: nothing, or the switch on the block found, which it may then free. -/
theorem tcpRecv_cases {n n' : Stack} {m : Mbuf} {len : UInt16} {raddr : UInt32}
    (hs : tcpRecv n m len raddr = some n') :
    n' = n ∨ ∃ p n1, getSockCb n .tcp m.tcphdr.dport raddr m.tcphdr.sport = some p ∧ p ≠ 0 ∧ n.alive p = true ∧
      n1 = { n.putConn p (tcpRecvSwitch ((n.conn p).newMbuf m) n.brk len raddr m.tcphdr.sport).1 with
        hist := n1.hist } ∧
      if (tcpRecvSwitch ((n.conn p).newMbuf m) n.brk len raddr m.tcphdr.sport).2 then freeSockCb n1 p = some n'
      else n' = n1 := by
  obtain ⟨p, hp, hs⟩ := bind_eq_some_iff.mp hs
  split at hs
  · exact .inl (some.inj hs).symm
  · next h0 =>
    split at hs
    · exact .inl (some.inj hs).symm
    · unfold tcpRecvFound at hs
      dsimp only at hs
      refine .inr ⟨p, { n.putConn p (tcpRecvSwitch ((n.conn p).newMbuf m) n.brk len raddr m.tcphdr.sport).1 with
        hist := update n.hist p (n.hist p ++
          [{ raddr := raddr, dport := m.tcphdr.sport, hdr := m.tcphdr, before := n.scbs p,
             after := (tcpRecvSwitch ((n.conn p).newMbuf m) n.brk len raddr m.tcphdr.sport).1.scb }]) },
        hp, h0, findScb_alive hp h0, rfl, ?_⟩
      split at hs
      · next hf =>
        rw [if_pos hf]
        exact hs
      · next hf =>
        rw [if_neg hf]
        exact (some.inj hs).symm

end InternetOs.Net
