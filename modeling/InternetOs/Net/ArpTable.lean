import InternetOs.Lib.DSeg
import InternetOs.Net.Frame

/-!
# The ARP table (`kernel/net/arptable.c`)

An `ArpTable` is the memory of the ARP cache: the entries by address, which of them are
allocated, and the heads of the 32 buckets.  Addresses are never handed out twice; a function
that reads or writes an entry that is not allocated, or that walks in circles, gives `none`.

`t.Buckets L`: bucket `i` is the doubly linked list `L i` of allocated entries with distinct
addresses.  `t.IsMap m`: moreover the resolved entries are the graph of the map `m`.

    get_arp_cache:   the entry of `ip`, appended unresolved when there is none  (getArpCache_spec)
    arp_cache_free:  right for the only entry of a bucket and for one between two others; the
                     last entry takes the whole bucket with it                  (arpCacheFree_keeps)
                     the first of several stays the head of its bucket          (arpCacheFree_first)
-/

namespace InternetOs.Net

open List Option Function

/-- `ARP_DEFUALT_ENTRY_NUM`. -/
def arpDefualtEntryNum : Nat := 32

/-- `struct arp_cache`. -/
structure ArpCache where
  resolved : Bool
  ip : UInt32
  mac : Mac
  prev : Nat
  next : Nat

structure ArpTable where
  caches : Nat → ArpCache
  alive : Nat → Bool
  brk : Nat
  /-- `arptable[i].head`. -/
  head : Nat → Nat

namespace ArpTable

def next (t : ArpTable) (p : Nat) : Nat := (t.caches p).next
def prev (t : ArpTable) (p : Nat) : Nat := (t.caches p).prev
def addr (t : ArpTable) (p : Nat) : UInt32 := (t.caches p).ip

/-- A write to an entry. -/
def set (t : ArpTable) (p : Nat) (f : ArpCache → ArpCache) : Option ArpTable :=
  if t.alive p then some { t with caches := Function.update t.caches p (f (t.caches p)) } else none

/-- The same through a pointer that may be null. -/
def setNonnull (t : ArpTable) (p : Nat) (f : ArpCache → ArpCache) : Option ArpTable :=
  if p ≠ 0 then t.set p f else some t

def setHead (t : ArpTable) (i p : Nat) : ArpTable := { t with head := Function.update t.head i p }

/-- `ufkalloc(sizeof(struct arp_cache))` and the writes to the new entry. -/
def alloc (t : ArpTable) (c : ArpCache) : ArpTable :=
  { t with
    caches := Function.update t.caches t.brk c
    alive := Function.update t.alive t.brk true
    brk := t.brk + 1 }

/-- `ufkfree`. -/
def free (t : ArpTable) (p : Nat) : ArpTable := { t with alive := Function.update t.alive p false }

/-- The loop of `get_arp_cache`: the last entry it passed and the one it found, `0` for none. -/
def walk (t : ArpTable) (ip : UInt32) : Nat → Nat → Nat → Option (Nat × Nat)
  | 0, _, _ => none
  | fuel + 1, prev, p =>
    if p = 0 then some (prev, 0)
    else if t.alive p then
      if t.addr p = ip then some (prev, p) else t.walk ip fuel p (t.next p)
    else none

end ArpTable

/-- The state `arptable_init` leaves. -/
def arptableInit : ArpTable :=
  { caches := fun _ => ⟨false, 0, 0, 0, 0⟩, alive := fun _ => false, brk := 1, head := fun _ => 0 }

/-- The bucket of an address. -/
def arpBucket (ip : UInt32) : Nat := ip.toNat % arpDefualtEntryNum

def arpCacheFree (t : ArpTable) (p : Nat) : Option ArpTable := do
  let i := arpBucket (t.addr p)
  let prev := t.prev p
  let next := t.next p
  let t ← t.setNonnull prev ({ · with next := next })
  let t ← t.setNonnull next ({ · with prev := prev })
  let t := if next ≠ 0 then t else t.setHead i next
  some (t.free p)

def getArpCache (t : ArpTable) (ip : UInt32) : Option (ArpTable × Nat) := do
  let i := arpBucket ip
  let (prev, p) ← t.walk ip t.brk 0 (t.head i)
  let (t, p) ←
    if p = 0 then do
      let new := t.brk
      let t := t.alloc ⟨false, ip, 0, prev, 0⟩
      let t ← t.setNonnull prev ({ · with next := new })
      some (t, new)
    else some (t, p)
  some (if t.head i = 0 then t.setHead i p else t, p)

def arptableAdd (t : ArpTable) (ip : UInt32) (mac : Mac) : Option ArpTable := do
  let (t, p) ← getArpCache t ip
  t.set p ({ · with resolved := true, mac := mac })

/-- The return value and what `mac` points to afterwards. -/
def arptableGetMac (t : ArpTable) (ip : UInt32) (mac : Mac) : Option (ArpTable × Int × Mac) := do
  let (t, p) ← getArpCache t ip
  some (t, if (t.caches p).resolved then (0, (t.caches p).mac) else (-1, mac))

def arptableDel (t : ArpTable) (ip : UInt32) : Option ArpTable := do
  let (t, p) ← getArpCache t ip
  arpCacheFree t p

/-! ## The buckets -/

namespace ArpTable

structure Buckets (t : ArpTable) (L : Nat → List Nat) : Prop where
  seg : ∀ i, ∃ b, DSeg t.next t.prev 0 (t.head i) (L i) b 0
  mem : ∀ i, ∀ p ∈ L i, p ≠ 0 ∧ t.alive p = true ∧ arpBucket (t.addr p) = i
  addrs : ∀ i, ((L i).map t.addr).Nodup
  below : ∀ p, t.alive p = true → p < t.brk
  pos : 0 < t.brk

/-- The resolved entries are the pairs of `m`. -/
def Holds (t : ArpTable) (L : Nat → List Nat) (m : UInt32 → Option Mac) : Prop :=
  ∀ ip mac, m ip = some mac ↔
    ∃ p ∈ L (arpBucket ip), t.addr p = ip ∧ (t.caches p).resolved = true ∧ (t.caches p).mac = mac

/-- **The table is the map `m`.** -/
def IsMap (t : ArpTable) (m : UInt32 → Option Mac) : Prop := ∃ L, t.Buckets L ∧ t.Holds L m

section
variable {t t' : ArpTable} {L : Nat → List Nat} {m m' : UInt32 → Option Mac} {ip : UInt32} {i p q : Nat}
  {l : List Nat} {b : Nat} {l1 l2 : List Nat}

theorem Buckets.nodup (h : t.Buckets L) (i : Nat) : (L i).Nodup := (h.addrs i).of_map _

theorem Buckets.addr_inj (h : t.Buckets L) (hp : p ∈ L i) (hq : q ∈ L i) (he : t.addr p = t.addr q) : p = q :=
  inj_on_of_nodup_map (h.addrs i) hp hq he

theorem Buckets.length_lt (h : t.Buckets L) (i : Nat) : (L i).length < t.brk :=
  length_lt_of_nodup h.pos (h.nodup i) fun p hp => ⟨(h.mem i p hp).1, h.below p (h.mem i p hp).2.1⟩

theorem Buckets.head_eq_zero (h : t.Buckets L) (i : Nat) : t.head i = 0 ↔ L i = [] := by
  obtain ⟨b, hs⟩ := h.seg i
  constructor
  · intro h0
    cases hl : L i with
    | nil => rfl
    | cons x l =>
      rw [hl] at hs
      exact absurd (hs.1.symm.trans h0) (h.mem i x (by simp [hl])).1
  · intro hl
    rw [hl] at hs
    exact hs.2.symm

/-- One bucket is replaced by the list `l`, the others are left alone. -/
theorem Buckets.update (h : t.Buckets L) (hhead : ∀ j, j ≠ i → t'.head j = t.head j)
    (hcell : ∀ j, j ≠ i → ∀ p ∈ L j, t'.caches p = t.caches p ∧ t'.alive p = true)
    (hseg : ∃ b, DSeg t'.next t'.prev 0 (t'.head i) l b 0)
    (hmem : ∀ p ∈ l, p ≠ 0 ∧ t'.alive p = true ∧ arpBucket (t'.addr p) = i)
    (haddrs : (l.map t'.addr).Nodup) (hbelow : ∀ p, t'.alive p = true → p < t'.brk) (hpos : 0 < t'.brk) :
    t'.Buckets (Function.update L i l) := by
  have hother : ∀ j, j ≠ i → Function.update L i l j = L j := fun j hj => Function.update_of_ne hj _ _
  refine ⟨fun j => ?_, fun j p hp => ?_, fun j => ?_, hbelow, hpos⟩
  · rcases eq_or_ne j i with rfl | hj
    · rw [update_self]
      exact hseg
    · obtain ⟨b, hs⟩ := h.seg j
      refine ⟨b, ?_⟩
      rw [hother j hj, hhead j hj]
      refine hs.congr fun x hx => ?_
      obtain ⟨hc, -⟩ := hcell j hj x hx
      simp [ArpTable.next, ArpTable.prev, hc]
  · rcases eq_or_ne j i with rfl | hj
    · rw [update_self] at hp
      exact hmem p hp
    · rw [hother j hj] at hp
      obtain ⟨hc, ha⟩ := hcell j hj p hp
      obtain ⟨h0, -, hb⟩ := h.mem j p hp
      refine ⟨h0, ha, ?_⟩
      rw [ArpTable.addr, hc]
      exact hb
  · rcases eq_or_ne j i with rfl | hj
    · rw [update_self]
      exact haddrs
    · rw [hother j hj]
      have heq : (L j).map t'.addr = (L j).map t.addr :=
        map_congr_left fun p hp => by rw [ArpTable.addr, (hcell j hj p hp).1]; rfl
      rw [heq]
      exact h.addrs j

theorem Holds.update (h : t.Holds L m) (hcell : ∀ j, j ≠ i → ∀ p ∈ L j, t'.caches p = t.caches p)
    (hm : ∀ ip, arpBucket ip ≠ i → m' ip = m ip) (hl : ∀ ip mac, arpBucket ip = i → (m' ip = some mac ↔
      ∃ p ∈ l, t'.addr p = ip ∧ (t'.caches p).resolved = true ∧ (t'.caches p).mac = mac)) :
    t'.Holds (Function.update L i l) m' := by
  intro ip mac
  by_cases hi : arpBucket ip = i
  · rw [hi, update_self]
    exact hl ip mac hi
  · rw [Function.update_of_ne hi, hm ip hi, h ip mac]
    refine exists_congr fun p => and_congr_right fun hp => ?_
    rw [ArpTable.addr, ArpTable.addr, hcell _ hi p hp]

/-- The loop of `get_arp_cache` stops at the entry of `ip` or behind the last entry. -/
theorem walk_spec (ip : UInt32) {a fuel : Nat} (h : DSeg t.next t.prev a q l b 0)
    (ha : ∀ x ∈ l, x ≠ 0 ∧ t.alive x = true) (hf : l.length < fuel) :
    (t.walk ip fuel a q = some (b, 0) ∧ ∀ x ∈ l, t.addr x ≠ ip) ∨
      ∃ l1 p l2 pr, l = l1 ++ p :: l2 ∧ t.addr p = ip ∧ t.walk ip fuel a q = some (pr, p) := by
  induction l generalizing a q fuel with
  | nil =>
    obtain ⟨fuel, rfl⟩ : ∃ k, fuel = k + 1 := ⟨fuel - 1, by simp at hf; omega⟩
    obtain ⟨rfl, rfl⟩ := h
    exact .inl ⟨by simp [walk], fun x hx => absurd hx not_mem_nil⟩
  | cons x l ih =>
    obtain ⟨rfl, -, hl⟩ := h
    obtain ⟨fuel, rfl⟩ : ∃ k, fuel = k + 1 := ⟨fuel - 1, by simp at hf; omega⟩
    obtain ⟨h0, hal⟩ := ha q mem_cons_self
    by_cases hip : t.addr q = ip
    · exact .inr ⟨[], q, l, a, rfl, hip, by simp [walk, h0, hal, hip]⟩
    · have hstep : t.walk ip (fuel + 1) a q = t.walk ip fuel q (t.next q) := by
        simp [walk, h0, hal, hip]
      rw [hstep]
      rcases ih hl (fun y hy => ha y (mem_cons_of_mem q hy)) (by simp at hf; omega) with
        ⟨hw, hall⟩ | ⟨l1, p, l2, pr, rfl, hp, hw⟩
      · exact .inl ⟨hw, forall_mem_cons.mpr ⟨hip, hall⟩⟩
      · exact .inr ⟨q :: l1, p, l2, pr, rfl, hp, hw⟩

/-- A new entry for `ip`, linked behind the last entry `b` of its bucket. -/
structure Appends (t : ArpTable) (ip : UInt32) (b : Nat) (t' : ArpTable) : Prop where
  head : ∀ j, j ≠ arpBucket ip → t'.head j = t.head j
  first : t'.head (arpBucket ip) = if b = 0 then t.brk else t.head (arpBucket ip)
  new : t'.caches t.brk = ⟨false, ip, 0, b, 0⟩
  old : ∀ x, x ≠ 0 → x ≠ t.brk → t'.caches x = { t.caches x with next := if x = b then t.brk else t.next x }
  alive : t'.alive = Function.update t.alive t.brk true
  brk : t'.brk = t.brk + 1

/-- The entries that were there keep everything but the link of the last. -/
theorem Appends.addr_old (ha : t.Appends ip b t') (h : t.Buckets L) (hp : p ∈ L i) :
    t'.addr p = t.addr p ∧ (t'.caches p).resolved = (t.caches p).resolved ∧ (t'.caches p).mac = (t.caches p).mac := by
  obtain ⟨h0, hal, -⟩ := h.mem i p hp
  rw [ArpTable.addr, ha.old p h0 (h.below p hal).ne]
  exact ⟨rfl, rfl, rfl⟩

theorem Buckets.append (h : t.Buckets L) (hip : ∀ x ∈ L (arpBucket ip), t.addr x ≠ ip)
    (hseg : DSeg t.next t.prev 0 (t.head (arpBucket ip)) (L (arpBucket ip)) b 0) (ha : t.Appends ip b t') :
    t'.Buckets (Function.update L (arpBucket ip) (L (arpBucket ip) ++ [t.brk])) ∧
      ∀ j, j ≠ arpBucket ip → ∀ x ∈ L j, t'.caches x = t.caches x := by
  have hlt : ∀ j, ∀ x ∈ L j, x ≠ t.brk := fun j x hx => (h.below x (h.mem j x hx).2.1).ne
  have hlive : ∀ j, ∀ x ∈ L j, t'.alive x = true := by
    intro j x hx
    rw [ha.alive, Function.update_of_ne (hlt j x hx)]
    exact (h.mem j x hx).2.1
  have hlast : ∀ l z, L (arpBucket ip) = l ++ [z] → b = z := fun l z hl => (hl ▸ hseg).last.1
  have hempty : L (arpBucket ip) = [] → b = 0 := fun hl => (hl ▸ hseg).1
  -- `b` is in no other bucket
  have hb : ∀ j, j ≠ arpBucket ip → ∀ x ∈ L j, x ≠ b := by
    rintro j hj x hx rfl
    rcases eq_nil_or_concat' (L (arpBucket ip)) with hl | ⟨l, z, hl⟩
    · exact (h.mem j x hx).1 (hempty hl)
    · obtain rfl := hlast l z hl
      have hz := (h.mem (arpBucket ip) x (by simp [hl])).2.2
      exact hj ((h.mem j x hx).2.2.symm.trans hz)
  have hcell : ∀ j, j ≠ arpBucket ip → ∀ x ∈ L j, t'.caches x = t.caches x := by
    intro j hj x hx
    rw [ha.old x (h.mem j x hx).1 (hlt j x hx), if_neg (hb j hj x hx)]
    rfl
  refine ⟨h.update ha.head (fun j hj x hx => ⟨hcell j hj x hx, hlive j x hx⟩) ?_ ?_ ?_ ?_ ?_, hcell⟩
  · -- the last entry now points to the new one
    refine ⟨t.brk, DSeg.append_iff.mpr ⟨b, t.brk, ?_, rfl, ?_, rfl, ?_⟩⟩
    · rcases eq_nil_or_concat' (L (arpBucket ip)) with hl | ⟨l, z, hl⟩
      · rw [hl, ha.first, hempty hl]
        exact ⟨rfl, rfl⟩
      · obtain rfl := hlast l z hl
        have hnd := h.nodup (arpBucket ip)
        have hold : ∀ y ∈ l ++ [b],
            t'.caches y = { t.caches y with next := if y = b then t.brk else t.next y } := fun y hy =>
          ha.old y (h.mem _ y (hl ▸ hy)).1 (hlt _ y (hl ▸ hy))
        have hb0 : b ≠ 0 := (h.mem (arpBucket ip) b (by simp [hl])).1
        rw [hl] at hseg hnd ⊢
        rw [ha.first, if_neg hb0]
        refine hseg.setEnd ?_ (fun y hy => ?_) fun y hy => ?_
        · simp [ArpTable.next, hold b (by simp)]
        · have hyb : y ≠ b := by
            rintro rfl
            exact (nodup_append.mp hnd).2.2 y hy y mem_cons_self rfl
          simp [ArpTable.next, hold y (mem_append_left _ hy), hyb]
        · simp [ArpTable.prev, hold y hy]
    · rw [ArpTable.prev, ha.new]
    · rw [ArpTable.next, ha.new]
  · intro x hx
    rcases mem_append.mp hx with hx | hx
    · rw [(ha.addr_old h hx).1]
      exact ⟨(h.mem _ x hx).1, hlive _ x hx, (h.mem _ x hx).2.2⟩
    · rw [List.mem_singleton] at hx
      subst hx
      exact ⟨h.pos.ne', by rw [ha.alive, update_self], by rw [ArpTable.addr, ha.new]⟩
  · have hmap : (L (arpBucket ip)).map t'.addr = (L (arpBucket ip)).map t.addr :=
      map_congr_left fun x hx => (ha.addr_old h hx).1
    rw [map_append, hmap, nodup_append]
    refine ⟨h.addrs _, nodup_singleton _, fun a hmem c hc => ?_⟩
    obtain ⟨x, hx, rfl⟩ := mem_map.mp hmem
    rw [map_singleton, List.mem_singleton] at hc
    rw [hc, show t'.addr t.brk = ip by rw [ArpTable.addr, ha.new]]
    exact hip x hx
  · intro x hx
    rw [ha.alive, update_apply] at hx
    rw [ha.brk]
    split at hx
    · omega
    · have := h.below x hx
      omega
  · rw [ha.brk]
    omega

theorem Holds.append (hm : t.Holds L m) (h : t.Buckets L) (ha : t.Appends ip b t')
    (hcell : ∀ j, j ≠ arpBucket ip → ∀ x ∈ L j, t'.caches x = t.caches x) :
    t'.Holds (Function.update L (arpBucket ip) (L (arpBucket ip) ++ [t.brk])) m := by
  refine hm.update hcell (fun _ _ => rfl) fun ip' mac hi => ?_
  rw [hm ip' mac, hi]
  constructor
  · rintro ⟨x, hx, hrest⟩
    refine ⟨x, mem_append_left _ hx, ?_⟩
    obtain ⟨h1, h2, h3⟩ := ha.addr_old h hx
    rw [h1, h2, h3]
    exact hrest
  · rintro ⟨x, hx, hrest⟩
    rcases mem_append.mp hx with hx | hx
    · obtain ⟨h1, h2, h3⟩ := ha.addr_old h hx
      rw [h1, h2, h3] at hrest
      exact ⟨x, hx, hrest⟩
    · -- the new entry is not resolved
      rw [List.mem_singleton] at hx
      subst hx
      rw [ha.new] at hrest
      exact absurd hrest.2.1 (by simp)

/-- The writes of `get_arp_cache` when the walk finds no entry and `b` is the last it passed. -/
theorem getArpCache_appends (hw : t.walk ip t.brk 0 (t.head (arpBucket ip)) = some (b, 0))
    (hb : b ≠ 0 → t.alive b = true ∧ b < t.brk ∧ t.head (arpBucket ip) ≠ 0)
    (hb0 : b = 0 → t.head (arpBucket ip) = 0) : ∃ t', getArpCache t ip = some (t', t.brk) ∧ t.Appends ip b t' := by
  by_cases h0 : b = 0
  · subst h0
    refine ⟨(t.alloc ⟨false, ip, 0, 0, 0⟩).setHead (arpBucket ip) t.brk, ?_, ?_⟩
    · rw [hb0 rfl] at hw
      simp [getArpCache, hw, alloc, setNonnull, hb0 rfl]
    · refine ⟨fun j hj => ?_, ?_, ?_, fun x hx hxb => ?_, rfl, rfl⟩
      · simp [setHead, alloc, hj]
      · simp [setHead]
      · simp [setHead, alloc]
      · simp [setHead, alloc, hx, hxb, ArpTable.next]
  · obtain ⟨hal, hlt, hhead⟩ := hb h0
    have hne : b ≠ t.brk := hlt.ne
    refine ⟨{ t.alloc ⟨false, ip, 0, b, 0⟩ with
      caches := Function.update (t.alloc ⟨false, ip, 0, b, 0⟩).caches b { t.caches b with next := t.brk } }, ?_, ?_⟩
    · simp [getArpCache, hw, h0, setNonnull, set, alloc, hal, hne, hhead]
    · refine ⟨fun j hj => rfl, ?_, ?_, fun x hx hxb => ?_, rfl, rfl⟩
      · simp [alloc, h0]
      · simp [alloc, hne.symm]
      · by_cases hxb' : x = b
        · subst hxb'
          simp
        · simp [alloc, hxb, hxb', ArpTable.next]

/-- **`get_arp_cache`** returns the entry of `ip`, between `l1` and `l2` in its bucket; it was there, or it
is a new one at the end. -/
theorem getArpCache_spec (h : t.Buckets L) (hm : t.Holds L m) (ip : UInt32) :
    ∃ t' p L' l1 l2, getArpCache t ip = some (t', p) ∧ t'.Buckets L' ∧ t'.Holds L' m ∧
      L' (arpBucket ip) = l1 ++ p :: l2 ∧ t'.addr p = ip ∧
      (t' = t ∧ L' = L ∨ l1 = L (arpBucket ip) ∧ l2 = [] ∧ (∀ x ∈ l1, t.addr x ≠ ip) ∧
          ∀ x ∈ l1, (t'.caches x).resolved = (t.caches x).resolved) := by
  obtain ⟨b, hseg⟩ := h.seg (arpBucket ip)
  have hlive : ∀ x ∈ L (arpBucket ip), x ≠ 0 ∧ t.alive x = true := fun x hx =>
    ⟨(h.mem _ x hx).1, (h.mem _ x hx).2.1⟩
  rcases walk_spec ip hseg hlive (h.length_lt _) with ⟨hw, hip⟩ | ⟨l1, p, l2, pr, hl, hp, hw⟩
  · -- not found: the new entry goes behind `b`
    have hb : (b = 0 ∧ t.head (arpBucket ip) = 0) ∨ (b ∈ L (arpBucket ip) ∧ t.head (arpBucket ip) ≠ 0) := by
      rcases eq_nil_or_concat' (L (arpBucket ip)) with hl | ⟨l, z, hl⟩
      · exact .inl ⟨(hl ▸ hseg).1, (h.head_eq_zero _).mpr hl⟩
      · refine .inr ⟨?_, fun h0 => ?_⟩
        · rw [hl] at hseg
          rw [hseg.last.1, hl]
          simp
        · rw [h.head_eq_zero, hl] at h0
          simp at h0
    obtain ⟨t', ht', ha⟩ := getArpCache_appends hw
      (fun h0 => by
        obtain ⟨hmem, hh⟩ := hb.resolve_left fun hb => h0 hb.1
        exact ⟨(hlive b hmem).2, h.below b (hlive b hmem).2, hh⟩)
      (fun h0 => (hb.resolve_right fun hb => (hlive b hb.1).1 h0).2)
    obtain ⟨hB, hcell⟩ := h.append hip hseg ha
    refine ⟨t', t.brk, _, L (arpBucket ip), [], ht', hB, hm.append h ha hcell, by simp, ?_, .inr ⟨rfl, rfl, hip, ?_⟩⟩
    · rw [ArpTable.addr, ha.new]
    · exact fun x hx => (ha.addr_old h hx).2.1
  · -- found
    have hne : t.head (arpBucket ip) ≠ 0 := by
      rw [Ne, h.head_eq_zero, hl]
      simp
    have hp0 : p ≠ 0 := (hlive p (by simp [hl])).1
    refine ⟨t, p, L, l1, l2, ?_, h, hm, hl, hp, .inl ⟨rfl, rfl⟩⟩
    simp [getArpCache, hw, hp0, hne]

/-- The unlinking of `arp_cache_free`: the head of the bucket is written when `p` has no successor. -/
structure Unlinks (t : ArpTable) (p : Nat) (t' : ArpTable) : Prop where
  caches : ∀ x, x ≠ 0 → t'.caches x = { t.caches x with
    next := if x = t.prev p then t.next p else t.next x
    prev := if x = t.next p then t.prev p else t.prev x }
  head : t'.head = if t.next p = 0 then Function.update t.head (arpBucket (t.addr p)) 0 else t.head
  alive : t'.alive = Function.update t.alive p false
  brk : t'.brk = t.brk

theorem setNonnull_spec {f : ArpCache → ArpCache} {a : Nat} (ha : a ≠ 0 → t.alive a = true) :
    ∃ t1 : ArpTable, t.setNonnull a f = some t1 ∧
      (∀ x, x ≠ 0 → t1.caches x = if x = a then f (t.caches x) else t.caches x) ∧
      t1.head = t.head ∧ t1.alive = t.alive ∧ t1.brk = t.brk := by
  by_cases h0 : a = 0
  · refine ⟨t, if_neg (not_not.mpr h0), fun x hx => ?_, rfl, rfl, rfl⟩
    rw [if_neg fun e => hx (e.trans h0)]
  · refine ⟨_, (if_pos h0).trans (if_pos (ha h0)), fun x hx => ?_, rfl, rfl, rfl⟩
    by_cases hxa : x = a
    · subst hxa
      simp
    · simp [hxa]

theorem arpCacheFree_unlinks (hprev : t.prev p ≠ 0 → t.alive (t.prev p) = true)
    (hnext : t.next p ≠ 0 → t.alive (t.next p) = true) : ∃ t', arpCacheFree t p = some t' ∧ t.Unlinks p t' := by
  obtain ⟨t1, h1, hc1, hh1, ha1, hb1⟩ := setNonnull_spec (f := ({ · with next := t.next p })) hprev
  obtain ⟨t2, h2, hc2, hh2, ha2, hb2⟩ :=
    setNonnull_spec (t := t1) (f := ({ · with prev := t.prev p })) fun h0 => ha1 ▸ hnext h0
  have hcaches : ∀ x, x ≠ 0 → t2.caches x = { t.caches x with
      next := if x = t.prev p then t.next p else t.next x
      prev := if x = t.next p then t.prev p else t.prev x } := by
    intro x hx
    rw [hc2 x hx, hc1 x hx]
    split_ifs <;> rfl
  refine ⟨(if t.next p ≠ 0 then t2 else t2.setHead (arpBucket (t.addr p)) (t.next p)).free p, ?_,
    fun x hx => ?_, ?_, ?_, ?_⟩
  · simp [arpCacheFree, h1, h2]
  · rw [← hcaches x hx]
    split <;> rfl
  · by_cases h0 : t.next p = 0
    · simp [h0, free, setHead, hh2, hh1]
    · simp [h0, free, hh2, hh1]
  · rw [← ha1, ← ha2]
    split <;> rfl
  · rw [← hb1, ← hb2]
    split <;> rfl

theorem Buckets.neighbours (h : t.Buckets L) (hl : L i = l1 ++ p :: l2) :
    (t.prev p = 0 ∧ l1 = [] ∨ t.prev p ∈ l1) ∧ (t.next p = 0 ∧ l2 = [] ∨ t.next p ∈ l2) := by
  obtain ⟨b, hs⟩ := h.seg i
  exact DSeg.neighbours (hl ▸ hs)

theorem arpCacheFree_spec (h : t.Buckets L) (hl : L i = l1 ++ p :: l2) :
    ∃ t', arpCacheFree t p = some t' ∧ t.Unlinks p t' := by
  have hlive : ∀ x ∈ l1 ++ p :: l2, t.alive x = true := fun x hx => (h.mem i x (hl ▸ hx)).2.1
  obtain ⟨hprev, hnext⟩ := h.neighbours hl
  refine arpCacheFree_unlinks (fun h0 => ?_) fun h0 => ?_
  · exact hlive _ (mem_append_left _ (hprev.resolve_left fun hp => h0 hp.1))
  · exact hlive _ (mem_append_right _ (mem_cons_of_mem p (hnext.resolve_left fun hp => h0 hp.1)))

theorem Unlinks.addr_old (hu : t.Unlinks p t') (hq : q ≠ 0) :
    t'.addr q = t.addr q ∧ (t'.caches q).resolved = (t.caches q).resolved ∧ (t'.caches q).mac = (t.caches q).mac := by
  rw [ArpTable.addr, hu.caches q hq]
  exact ⟨rfl, rfl, rfl⟩

theorem Buckets.unlink_other (h : t.Buckets L) (hl : L i = l1 ++ p :: l2)
    (hu : t.Unlinks p t') {j : Nat} (hj : j ≠ i) (hq : q ∈ L j) :
    t'.caches q = t.caches q ∧ t'.alive q = true := by
  obtain ⟨h0, hal, hb⟩ := h.mem j q hq
  have hne : ∀ x ∈ l1 ++ p :: l2, q ≠ x := by
    rintro x hx rfl
    exact hj (hb.symm.trans (h.mem i q (hl ▸ hx)).2.2)
  obtain ⟨b, hs⟩ := h.seg i
  rw [hl] at hs
  obtain ⟨h1, h2⟩ := hs.not_neighbour (fun hm => hne q hm rfl) h0
  constructor
  · rw [hu.caches q h0, if_neg h1, if_neg h2]
    rfl
  · rw [hu.alive, Function.update_of_ne (hne p (by simp))]
    exact hal

/-- **`arp_cache_free` of an entry that is not the first of several.**  The entries around it stay, unless it
was the last: then the bucket is empty. -/
theorem arpCacheFree_keeps (h : t.Buckets L) (hl : L i = l1 ++ p :: l2)
    (hu : t.Unlinks p t') (hfirst : l1 = [] → l2 = []) :
    t'.Buckets (Function.update L i (if l2 = [] then [] else l1 ++ l2)) := by
  have hpi : arpBucket (t.addr p) = i := (h.mem i p (by simp [hl])).2.2
  have hhead : ∀ j, j ≠ i → t'.head j = t.head j := by
    intro j hj
    rw [hu.head]
    split
    · rw [hpi, Function.update_of_ne hj]
    · rfl
  have hnd := h.nodup i
  have hbelow : ∀ x, t'.alive x = true → x < t'.brk := by
    intro x hx
    rw [hu.alive, update_apply] at hx
    split at hx
    · cases hx
    · rw [hu.brk]
      exact h.below x hx
  refine h.update hhead (fun j hj x hx => h.unlink_other hl hu hj hx) ?_ ?_ ?_ hbelow (hu.brk ▸ h.pos)
  · obtain ⟨hprev, hnext⟩ := h.neighbours hl
    by_cases h2 : l2 = []
    · -- the head of the bucket is cleared
      have hn0 : t.next p = 0 := by
        rcases hnext with ⟨hn, -⟩ | hn
        · exact hn
        · simp [h2] at hn
      refine ⟨0, ?_⟩
      rw [if_pos h2, hu.head, if_pos hn0, hpi, update_self]
      exact ⟨rfl, rfl⟩
    · have h1 : l1 ≠ [] := fun h1 => h2 (hfirst h1)
      have hn0 : t.next p ≠ 0 := by
        rcases hnext with ⟨-, hn⟩ | hn
        · exact absurd hn h2
        · exact (h.mem i _ (by rw [hl]; exact mem_append_right _ (mem_cons_of_mem p hn))).1
      obtain ⟨b, hs⟩ := h.seg i
      rw [hl] at hs hnd
      have hrem := hs.unlink t'.next t'.prev (fun x hx => (h.mem i x (hl ▸ hx)).1) hnd
        (fun y hy => by rw [ArpTable.next, hu.caches y hy]) fun y hy => by rw [ArpTable.prev, hu.caches y hy]
      rw [if_neg h1, if_neg h2] at hrem
      rw [if_neg h2, hu.head, if_neg hn0]
      exact ⟨b, hrem⟩
  · intro x hx
    have hx' : x ∈ l1 ++ l2 := by
      split at hx
      · cases hx
      · exact hx
    have hxp : x ≠ p := by
      rintro rfl
      rw [hl] at hnd
      exact (nodup_middle.mp hnd).notMem hx'
    obtain ⟨h0, hal, hb⟩ := h.mem i x (by rw [hl]; simp at hx' ⊢; tauto)
    refine ⟨h0, ?_, ?_⟩
    · rw [hu.alive, Function.update_of_ne hxp]
      exact hal
    · rw [(hu.addr_old h0).1]
      exact hb
  · split
    · exact nodup_nil
    · have haddrs := h.addrs i
      rw [hl] at haddrs
      have hmap : (l1 ++ l2).map t'.addr = (l1 ++ l2).map t.addr :=
        map_congr_left fun x hx => (hu.addr_old (h.mem i x (by rw [hl]; simp at hx ⊢; tauto)).1).1
      rw [hmap]
      exact haddrs.sublist (((sublist_cons_self p l2).append_left l1).map _)

/-- What is looked up afterwards, if the entries that go with the last one are not resolved. -/
theorem arpCacheFree_holds (h : t.Buckets L) (hm : t.Holds L m) (hl : L i = l1 ++ p :: l2)
    (hu : t.Unlinks p t') (hlast : l2 = [] → ∀ x ∈ l1, (t.caches x).resolved = false) :
    t'.Holds (Function.update L i (if l2 = [] then [] else l1 ++ l2)) (Function.update m (t.addr p) none) := by
  have hmem : ∀ x ∈ l1 ++ p :: l2, x ∈ L i := fun x hx => hl ▸ hx
  have hpi : arpBucket (t.addr p) = i := (h.mem i p (by simp [hl])).2.2
  refine hm.update (fun j hj x hx => (h.unlink_other hl hu hj hx).1) (fun ip hip => ?_) fun ip mac hip => ?_
  · rw [Function.update_of_ne fun e => hip (by rw [e]; exact hpi)]
  · have hnd := h.nodup i
    rw [hl] at hnd
    constructor
    · intro hmac
      have hne : ip ≠ t.addr p := by
        rintro rfl
        simp at hmac
      rw [Function.update_of_ne hne, hm ip mac, hip, hl] at hmac
      obtain ⟨x, hx, hxa, hxr, hxm⟩ := hmac
      have hxp : x ≠ p := fun e => hne (by rw [← hxa, e])
      have hx' : x ∈ l1 ++ l2 := by
        simp only [mem_append, mem_cons] at hx ⊢
        tauto
      obtain ⟨e1, e2, e3⟩ := hu.addr_old (h.mem i x (hmem x hx)).1
      refine ⟨x, ?_, by rw [e1]; exact hxa, by rw [e2]; exact hxr, by rw [e3]; exact hxm⟩
      rw [if_neg]
      · exact hx'
      · intro h2
        rw [h2, append_nil] at hx'
        rw [hlast h2 x hx'] at hxr
        cases hxr
    · rintro ⟨x, hx, hxa, hxr, hxm⟩
      have hx' : x ∈ l1 ++ l2 := by
        split at hx
        · cases hx
        · exact hx
      have hxin : x ∈ L i := hmem x (by simp at hx' ⊢; tauto)
      obtain ⟨e1, e2, e3⟩ := hu.addr_old (h.mem i x hxin).1
      rw [e1] at hxa
      rw [e2] at hxr
      rw [e3] at hxm
      have hne : ip ≠ t.addr p := by
        rintro rfl
        obtain rfl := h.addr_inj hxin (hmem p (by simp)) hxa
        exact (nodup_middle.mp hnd).notMem hx'
      rw [Function.update_of_ne hne, hm ip mac, hip]
      exact ⟨x, hxin, hxa, hxr, hxm⟩

/-- **`arp_cache_free` of the first of several entries** leaves the freed entry at the head. -/
theorem arpCacheFree_first (h : t.Buckets L) (hl : L i = p :: l2) (hu : t.Unlinks p t')
    (h2 : l2 ≠ []) : ¬ ∃ L', t'.Buckets L' := by
  rintro ⟨L', h'⟩
  obtain ⟨hp0, -, -⟩ := h.mem i p (by simp [hl])
  have hnext : t.next p ≠ 0 := by
    rcases (h.neighbours (show L i = [] ++ p :: l2 from hl)).2 with ⟨-, hn⟩ | hn
    · exact absurd hn h2
    · exact (h.mem i _ (by rw [hl]; exact mem_cons_of_mem p hn)).1
  have hhead : t'.head i = p := by
    obtain ⟨b, hs⟩ := h.seg i
    rw [hl] at hs
    rw [hu.head, if_neg hnext]
    exact hs.1
  obtain ⟨b, hs⟩ := h'.seg i
  rw [hhead] at hs
  cases hl' : L' i with
  | nil =>
    rw [hl'] at hs
    exact hp0 hs.2.symm
  | cons x l =>
    rw [hl'] at hs
    obtain rfl := hs.1
    have hdead := (h'.mem i p (by simp [hl'])).2.1
    rw [hu.alive, update_self] at hdead
    cases hdead

/-- **`arp_cache_free` of the last entry** loses every resolved entry before it. -/
theorem arpCacheFree_last (h : t.Buckets L) (hm : t.Holds L m) (hl : L i = l1 ++ [p])
    (hu : t.Unlinks p t') {x : Nat} (hx : x ∈ l1) (hr : (t.caches x).resolved = true) :
    ¬ t'.IsMap (Function.update m (t.addr p) none) := by
  rintro ⟨L', h', hm'⟩
  have hpi : arpBucket (t.addr p) = i := (h.mem i p (by simp [hl])).2.2
  have hxi : x ∈ L i := by
    rw [hl]
    exact mem_append_left _ hx
  have hnext : t.next p = 0 := by
    rcases (h.neighbours hl).2 with ⟨hn, -⟩ | hn
    · exact hn
    · cases hn
  have hempty : L' i = [] := by
    rw [← h'.head_eq_zero, hu.head, if_pos hnext, hpi, update_self]
  have hne : t.addr x ≠ t.addr p := by
    intro he
    obtain rfl := h.addr_inj hxi (by simp [hl]) he
    have hnd := h.nodup i
    rw [hl] at hnd
    exact (nodup_append.mp hnd).2.2 x hx x mem_cons_self rfl
  have hxb : arpBucket (t.addr x) = i := (h.mem i x hxi).2.2
  have hsome : m (t.addr x) = some (t.caches x).mac :=
    (hm _ _).mpr ⟨x, by rw [hxb]; exact hxi, rfl, hr, rfl⟩
  rw [← Function.update_of_ne hne none m, hm', hxb, hempty] at hsome
  obtain ⟨y, hy, -⟩ := hsome
  cases hy

end

/-! ## Calls -/

/-- The entries in the bucket of `ip`. -/
def bucket (t : ArpTable) (ip : UInt32) : List Nat := follow t.next t.brk (t.head (arpBucket ip))

/-- When `arptable_del(ip)` is harmless: the entry of `ip` is not the first of several in its bucket, and if
it is the last (or there is none, so that one is appended), no other entry of the bucket is resolved. -/
def DelSafe (t : ArpTable) (ip : UInt32) : Prop :=
  ((t.bucket ip).head?.map t.addr = some ip → (t.bucket ip).tail = []) ∧
  ((t.bucket ip).getLast?.map t.addr = some ip ∨ ip ∉ (t.bucket ip).map t.addr →
    ∀ p ∈ t.bucket ip, t.addr p ≠ ip → (t.caches p).resolved = false)

instance (t : ArpTable) (ip : UInt32) : Decidable (t.DelSafe ip) := inferInstanceAs (Decidable (_ ∧ _))

section
variable {t t' : ArpTable} {L : Nat → List Nat} {m : UInt32 → Option Mac} {ip : UInt32}

theorem Buckets.bucket_eq (h : t.Buckets L) (ip : UInt32) : t.bucket ip = L (arpBucket ip) := by
  obtain ⟨b, hs⟩ := h.seg (arpBucket ip)
  exact (hs.chain fun x hx => (h.mem _ x hx).1).follow_eq (h.length_lt _).le

theorem Buckets.delSafe_found (h : t.Buckets L) {p : Nat} {l1 l2 : List Nat}
    (hl : L (arpBucket ip) = l1 ++ p :: l2) (hp : t.addr p = ip) :
    t.DelSafe ip ↔ (l1 = [] → l2 = []) ∧ (l2 = [] → ∀ x ∈ l1, (t.caches x).resolved = false) := by
  have hne : ∀ x ∈ l1 ++ l2, t.addr x ≠ ip := by
    intro x hx he
    have hxp : x = p := h.addr_inj (by rw [hl]; simp at hx ⊢; tauto) (by simp [hl]) (he.trans hp.symm)
    have hnd := h.nodup (arpBucket ip)
    rw [hl] at hnd
    exact (nodup_middle.mp hnd).notMem (hxp ▸ hx)
  rw [DelSafe, h.bucket_eq, hl]
  have hfirst : (l1 ++ p :: l2).head?.map t.addr = some ip ↔ l1 = [] := by
    cases l1 with
    | nil => simp [hp]
    | cons x l => simp [hne x (by simp)]
  have hlast : (l1 ++ p :: l2).getLast?.map t.addr = some ip ↔ l2 = [] := by
    rcases eq_nil_or_concat' l2 with rfl | ⟨l, z, rfl⟩
    · simp [hp]
    · have hz := hne z (by simp)
      have hsnoc : l1 ++ p :: (l ++ [z]) = (l1 ++ p :: l) ++ [z] := by simp
      rw [hsnoc, getLast?_concat]
      simp [hz]
  have hin : ip ∈ (l1 ++ p :: l2).map t.addr := mem_map.mpr ⟨p, by simp, hp⟩
  rw [hfirst, hlast]
  refine and_congr (forall_congr' fun h1 => ?_) ?_
  · simp [h1]
  · constructor
    · intro hall h2 x hx
      exact hall (.inl h2) x (mem_append_left _ hx) (hne x (mem_append_left _ hx))
    · rintro hall (h2 | hnot) x hx hxne
      · subst h2
        rcases mem_append.mp hx with hx | hx
        · exact hall rfl x hx
        · rw [List.mem_singleton] at hx
          exact absurd (hx ▸ hp) hxne
      · exact absurd hin hnot

theorem Buckets.delSafe_absent (h : t.Buckets L) (hip : ∀ x ∈ L (arpBucket ip), t.addr x ≠ ip) :
    t.DelSafe ip ↔ ∀ x ∈ L (arpBucket ip), (t.caches x).resolved = false := by
  rw [DelSafe, h.bucket_eq]
  have hnot : ip ∉ (L (arpBucket ip)).map t.addr := by
    intro hmem
    obtain ⟨x, hx, hxe⟩ := mem_map.mp hmem
    exact hip x hx hxe
  have hfirst : (L (arpBucket ip)).head?.map t.addr ≠ some ip := by
    intro he
    obtain ⟨x, hx, hxe⟩ := map_eq_some_iff.mp he
    exact hip x (mem_of_mem_head? hx) hxe
  constructor
  · intro hs x hx
    exact hs.2 (.inr hnot) x hx (hip x hx)
  · intro hall
    exact ⟨fun he => absurd he hfirst, fun _ x hx _ => hall x hx⟩

/-- **`arptable_del`** removes `ip` from the map exactly when it is harmless. -/
theorem arptableDel_spec (h : t.IsMap m) (ip : UInt32) : ∃ t', arptableDel t ip = some t' ∧
    (t'.IsMap (Function.update m ip none) ↔ t.DelSafe ip) := by
  obtain ⟨L, hB, hH⟩ := h
  obtain ⟨t1, p, L1, l1, l2, hget, hB1, hH1, hl, hp, hwas⟩ := getArpCache_spec hB hH ip
  obtain ⟨t', hfree, hu⟩ := arpCacheFree_spec hB1 hl
  have hsafe : t.DelSafe ip ↔ (l1 = [] → l2 = []) ∧ (l2 = [] → ∀ x ∈ l1, (t1.caches x).resolved = false) := by
    rcases hwas with ⟨rfl, rfl⟩ | ⟨rfl, rfl, hip, hres⟩
    · exact hB.delSafe_found hl hp
    · rw [hB.delSafe_absent hip]
      constructor
      · intro hall
        exact ⟨fun _ => rfl, fun _ x hx => (hres x hx).trans (hall x hx)⟩
      · rintro ⟨-, hall⟩ x hx
        exact (hres x hx).symm.trans (hall rfl x hx)
  refine ⟨t', by simp [arptableDel, hget, hfree], ?_⟩
  rw [hsafe]
  subst hp
  constructor
  · intro hmap
    constructor
    · intro h1
      subst h1
      by_contra h2
      obtain ⟨L', hB', -⟩ := hmap
      exact arpCacheFree_first hB1 hl hu h2 ⟨L', hB'⟩
    · intro h2 x hx
      subst h2
      by_contra hr
      exact arpCacheFree_last hB1 hH1 hl hu hx (by simpa using hr) hmap
  · rintro ⟨hfirst, hlast⟩
    exact ⟨_, arpCacheFree_keeps hB1 hl hu hfirst, arpCacheFree_holds hB1 hH1 hl hu hlast⟩

/-- **`arptable_get_mac`** answers from the map and leaves it as it is. -/
theorem arptableGetMac_spec (h : t.IsMap m) (ip : UInt32) (mac : Mac) : ∃ t',
    arptableGetMac t ip mac = some (t', ((m ip).elim (-1, mac) fun a => (0, a))) ∧ t'.IsMap m := by
  obtain ⟨L, hB, hH⟩ := h
  obtain ⟨t1, p, L1, l1, l2, hget, hB1, hH1, hl, hp, -⟩ := getArpCache_spec hB hH ip
  refine ⟨t1, ?_, L1, hB1, hH1⟩
  have hpin : p ∈ L1 (arpBucket ip) := by simp [hl]
  cases hr : (t1.caches p).resolved with
  | true =>
    have hm : m ip = some (t1.caches p).mac := (hH1 _ _).mpr ⟨p, hpin, hp, hr, rfl⟩
    simp [arptableGetMac, hget, hr, hm]
  | false =>
    have hm : m ip = none := by
      rw [eq_none_iff_forall_ne_some]
      intro a ha
      obtain ⟨q, hq, hqa, hqr, -⟩ := (hH1 _ _).mp ha
      obtain rfl := hB1.addr_inj hq hpin (hqa.trans hp.symm)
      rw [hr] at hqr
      cases hqr
    simp [arptableGetMac, hget, hr, hm]

theorem arptableAdd_spec (h : t.IsMap m) (ip : UInt32) (mac : Mac) : ∃ t',
    arptableAdd t ip mac = some t' ∧ t'.IsMap (Function.update m ip (some mac)) := by
  obtain ⟨L, hB, hH⟩ := h
  obtain ⟨t1, p, L1, l1, l2, hget, hB1, hH1, hl, hp, -⟩ := getArpCache_spec hB hH ip
  have hpin : p ∈ L1 (arpBucket ip) := by simp [hl]
  obtain ⟨hp0, hal, -⟩ := hB1.mem _ p hpin
  let t' : ArpTable := { t1 with
    caches := Function.update t1.caches p { t1.caches p with resolved := true, mac := mac } }
  have hset : t1.set p ({ · with resolved := true, mac := mac }) = some t' := if_pos hal
  have hself : t'.caches p = { t1.caches p with resolved := true, mac := mac } := update_self _ _ _
  have hother : ∀ q, q ≠ p → t'.caches q = t1.caches q := fun q hq => Function.update_of_ne hq _ _
  have hlinks : t'.next = t1.next ∧ t'.prev = t1.prev ∧ t'.addr = t1.addr := by
    refine ⟨?_, ?_, ?_⟩ <;> funext q <;> by_cases hq : q = p
    · rw [hq, ArpTable.next, hself]; rfl
    · rw [ArpTable.next, hother q hq]; rfl
    · rw [hq, ArpTable.prev, hself]; rfl
    · rw [ArpTable.prev, hother q hq]; rfl
    · rw [hq, ArpTable.addr, hself]; rfl
    · rw [ArpTable.addr, hother q hq]; rfl
  obtain ⟨hn, hv, ha⟩ := hlinks
  refine ⟨t', by simp [arptableAdd, hget, hset], L1, ⟨?_, ?_, ?_, hB1.below, hB1.pos⟩, ?_⟩
  · rw [hn, hv]
    exact hB1.seg
  · rw [ha]
    exact hB1.mem
  · rw [ha]
    exact hB1.addrs
  · intro ip' mac'
    rw [ha]
    by_cases hip : ip' = ip
    · subst hip
      rw [update_self, some.injEq]
      constructor
      · rintro rfl
        exact ⟨p, hpin, hp, by rw [hself], by rw [hself]⟩
      · rintro ⟨q, hq, hqa, -, hqm⟩
        obtain rfl := hB1.addr_inj hq hpin (hqa.trans hp.symm)
        rw [hself] at hqm
        exact hqm
    · rw [Function.update_of_ne hip, hH1 ip' mac']
      refine exists_congr fun q => and_congr_right fun hq => and_congr_right fun hqa => ?_
      rw [hother q]
      rintro rfl
      exact hip (hqa.symm.trans hp)

end

end ArpTable

/-- A call of the table; `getMac` with what its out parameter holds before. -/
inductive ArpCall
  | add (ip : UInt32) (mac : Mac)
  | getMac (ip : UInt32) (mac : Mac)
  | del (ip : UInt32)

/-- The call, and what it returns. -/
def ArpTable.call (t : ArpTable) : ArpCall → Option (ArpTable × Option (Int × Mac))
  | .add ip mac => (arptableAdd t ip mac).map fun t => (t, none)
  | .getMac ip mac => (arptableGetMac t ip mac).map fun r => (r.1, some r.2)
  | .del ip => (arptableDel t ip).map fun t => (t, none)

def ArpTable.Step (t : ArpTable) (c : ArpCall) (t' : ArpTable) : Prop := ∃ r, t.call c = some (t', r)

/-- The condition on a call. -/
def ArpTable.Safe (t : ArpTable) : ArpCall → Prop
  | .del ip => t.DelSafe ip
  | _ => True

namespace ArpCall

/-- The map after a call. -/
def after (m : UInt32 → Option Mac) : ArpCall → UInt32 → Option Mac
  | add ip mac => Function.update m ip (some mac)
  | getMac _ _ => m
  | del ip => Function.update m ip none

/-- What a map returns. -/
def answer (m : UInt32 → Option Mac) : ArpCall → Option (Int × Mac)
  | getMac ip mac => some ((m ip).elim (-1, mac) fun a => (0, a))
  | _ => none

end ArpCall

/-- The map a sequence of calls leaves. -/
def arpMap (calls : List ArpCall) : UInt32 → Option Mac := calls.foldl ArpCall.after fun _ => none

theorem ArpTable.IsMap.call {t : ArpTable} {m : UInt32 → Option Mac} (h : t.IsMap m) (c : ArpCall) :
    ∃ t', t.call c = some (t', c.answer m) ∧ (t'.IsMap (c.after m) ↔ t.Safe c) := by
  cases c with
  | add ip mac =>
    obtain ⟨t', ht', hm⟩ := ArpTable.arptableAdd_spec h ip mac
    exact ⟨t', by rw [ArpTable.call, ht']; rfl, iff_of_true hm trivial⟩
  | getMac ip mac =>
    obtain ⟨t', ht', hm⟩ := ArpTable.arptableGetMac_spec h ip mac
    exact ⟨t', by rw [ArpTable.call, ht']; rfl, iff_of_true hm trivial⟩
  | del ip =>
    obtain ⟨t', ht', hm⟩ := ArpTable.arptableDel_spec h ip
    exact ⟨t', by rw [ArpTable.call, ht']; rfl, hm⟩

theorem arptableInit_isMap : arptableInit.IsMap fun _ => none := by
  refine ⟨fun _ => [], ⟨fun i => ⟨0, rfl, rfl⟩, fun i p hp => ?_, fun i => nodup_nil, fun p hp => ?_, ?_⟩,
    fun ip mac => ?_⟩
  · cases hp
  · cases hp
  · decide
  · simp

theorem ArpTable.isMap_run {calls : List ArpCall} {t : ArpTable}
    (h : Run (guard ArpTable.Safe ArpTable.Step) arptableInit calls t) : t.IsMap (arpMap calls) := by
  refine h.inv_trace (I := fun calls t => t.IsMap (arpMap calls)) ?_ arptableInit_isMap
  rintro calls t c t' hm ⟨hsafe, r, hr⟩
  obtain ⟨t1, ht1, hiff⟩ := hm.call c
  rw [ht1] at hr
  obtain ⟨rfl, -⟩ := Prod.mk.inj (some.inj hr)
  rw [arpMap, foldl_append]
  exact hiff.mpr hsafe

/-- **The table as a map.**  After any sequence of calls in which every deletion is harmless, the table is
the map that the calls describe, in well-formed buckets; every further call returns what that map returns,
and leaves the map it describes exactly if it is harmless. -/
theorem arpTableMap {calls : List ArpCall} {t : ArpTable}
    (h : Run (guard ArpTable.Safe ArpTable.Step) arptableInit calls t) :
    t.IsMap (arpMap calls) ∧ ∀ c, ∃ t', t.call c = some (t', c.answer (arpMap calls)) ∧
      (t'.IsMap (arpMap (calls ++ [c])) ↔ t.Safe c) := by
  have hm := ArpTable.isMap_run h
  refine ⟨hm, fun c => ?_⟩
  have hafter : arpMap (calls ++ [c]) = c.after (arpMap calls) := by simp [arpMap]
  rw [hafter]
  exact hm.call c

instance (t : ArpTable) (c : ArpCall) : Decidable (t.Safe c) :=
  match c with
  | .del ip => inferInstanceAs (Decidable (t.DelSafe ip))
  | .add _ _ => isTrue trivial
  | .getMac _ _ => isTrue trivial

/-- Three addresses of one bucket; the one in the middle is deleted, then the table is asked for it. -/
theorem arpTableMap_run : ∃ t : ArpTable,
    t.IsMap (arpMap [.add 1 localMac, .add 33 broadcastMac, .getMac 65 0, .del 33]) ∧
    (arpMap [.add 1 localMac, .add 33 broadcastMac, .getMac 65 0, .del 33]) 1 = some localMac ∧
    ∃ t', t.call (.getMac 33 0) = some (t', some (-1, 0)) := by
  obtain ⟨t, ht⟩ : ∃ t, runOf (guardStep ArpTable.Safe fun t c => (t.call c).map Prod.fst) arptableInit
      [.add 1 localMac, .add 33 broadcastMac, .getMac 65 0, .del 33] = some t := by
    refine isSome_iff_exists.mp ?_
    decide +kernel
  have hrun : Run (guard ArpTable.Safe ArpTable.Step) arptableInit
      [.add 1 localMac, .add 33 broadcastMac, .getMac 65 0, .del 33] t := by
    refine (Run.of_guardStep ht).mono ?_
    rintro s c s' ⟨hsafe, hstep⟩
    obtain ⟨r, hr, rfl⟩ := map_eq_some_iff.mp hstep
    exact ⟨hsafe, r.2, hr⟩
  obtain ⟨hm, hcall⟩ := arpTableMap hrun
  obtain ⟨t', ht', -⟩ := hcall (.getMac 33 0)
  exact ⟨t, hm, by decide, t', ht'⟩

/-- Two addresses of one bucket; deleting the second makes `arptable_get_mac` forget the first. -/
theorem arpTable_forgets : ∃ t, Run ArpTable.Step arptableInit [.add 1 localMac, .add 33 broadcastMac, .del 33] t ∧
    (t.call (.getMac 1 0)).map Prod.snd = some (some (-1, 0)) ∧
    arpMap [.add 1 localMac, .add 33 broadcastMac, .del 33] 1 = some localMac := by
  obtain ⟨t, ht, hcall⟩ : ∃ t, runOf (fun t c => (t.call c).map Prod.fst) arptableInit
      [.add 1 localMac, .add 33 broadcastMac, .del 33] = some t ∧
      (t.call (.getMac 1 0)).map Prod.snd = some (some (-1, 0)) := by
    decide +kernel
  refine ⟨t, (Run.of_runOf ht).mono ?_, hcall, by decide⟩
  intro s c s' hstep
  obtain ⟨r, hr, rfl⟩ := map_eq_some_iff.mp hstep
  exact ⟨r.2, hr⟩

end InternetOs.Net
