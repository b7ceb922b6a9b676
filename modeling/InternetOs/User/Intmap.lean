import InternetOs.Lib.Chain
import InternetOs.Lib.Run

/-!
# The hash table of the file server (`user/ulib/intmap.c`)

A table of 128 buckets.  `llookup` returns the address of the link that leads to the element, which is a bucket
or the link of another element (`Cell`), or of the link where the chain ends.

    after every sequence of calls the next one is that on a finite map      (intmap)

`malloc` may return any address that is not in use, also one that `free` has had back.
-/

namespace InternetOs.User

open Function List

def nhash : Nat := 128

def hashid (id : UInt64) : Nat := id.toNat % nhash

/-- Where a link is: in the table, or in an element. -/
inductive Cell
  | hash (h : Nat)
  | elem (p : Nat)
  deriving DecidableEq

/-- The elements by their addresses; `live` are those that `malloc` has returned and `free` has not had back. -/
structure Intmap where
  link : Cell → Nat
  id : Nat → UInt64
  aux : Nat → Nat
  live : List Nat

namespace Intmap

def empty : Intmap := ⟨fun _ => 0, fun _ => 0, fun _ => 0, []⟩

def llookup (m : Intmap) (id : UInt64) : Nat → Cell → Option Cell
  | 0, _ => none
  | fuel + 1, lf =>
    if m.link lf = 0 then some lf else if m.id (m.link lf) = id then some lf else m.llookup id fuel (.elem (m.link lf))

def lookup (m : Intmap) (id : UInt64) : Option Cell := m.llookup id (m.live.length + 1) (.hash (hashid id))

def lookupkey (m : Intmap) (id : UInt64) : Option Nat :=
  (m.lookup id).map fun lf => if m.link lf = 0 then 0 else m.aux (m.link lf)

/-- A new element, at the address `f` that `malloc` returns. -/
def push (m : Intmap) (id : UInt64) (v f : Nat) : Intmap :=
  let h := hashid id
  { link := update (update m.link (.elem f) (m.link (.hash h))) (.hash h) f
    id := update m.id f id, aux := update m.aux f v, live := f :: m.live }

def insertkey (m : Intmap) (id : UInt64) (v f : Nat) : Option (Nat × Intmap) :=
  (m.lookup id).map fun lf =>
    if m.link lf = 0 then (0, m.push id v f)
    else (m.aux (m.link lf), { m with aux := update m.aux (m.link lf) v })

def caninsertkey (m : Intmap) (id : UInt64) (v f : Nat) : Option (Nat × Intmap) :=
  (m.lookup id).map fun lf => if m.link lf = 0 then (1, m.push id v f) else (0, m)

def deletekey (m : Intmap) (id : UInt64) : Option (Nat × Intmap) :=
  (m.lookup id).map fun lf =>
    let f := m.link lf
    if f = 0 then (0, m)
    else (m.aux f, { m with link := update m.link lf (m.link (.elem f)), live := m.live.erase f })

inductive Call
  | lookup (id : UInt64)
  | insert (id : UInt64) (v f : Nat)
  | canInsert (id : UInt64) (v f : Nat)
  | delete (id : UInt64)

def step (m : Intmap) : Call → Option (Nat × Intmap)
  | .lookup id => (m.lookupkey id).map fun v => (v, m)
  | .insert id v f => m.insertkey id v f
  | .canInsert id v f => m.caninsertkey id v f
  | .delete id => m.deletekey id

/-! ## The map it is -/

/-- What the call returns for the map `M`, and the map after it. -/
def Call.on (M : UInt64 → Option Nat) : Call → Nat × (UInt64 → Option Nat)
  | .lookup id => ((M id).getD 0, M)
  | .insert id v _ => ((M id).getD 0, update M id (some v))
  | .canInsert id v _ => if (M id).isSome then (0, M) else (1, update M id (some v))
  | .delete id => ((M id).getD 0, update M id none)

def next (m : Intmap) (p : Nat) : Nat := m.link (.elem p)

/-- The elements of the bucket `h`: the keys have this hash, and each occurs once. -/
structure Bucket (m : Intmap) (h : Nat) (l : List Nat) : Prop where
  chain : Chain m.next (m.link (.hash h)) l
  keys : (l.map m.id).Nodup
  mem : ∀ x ∈ l, hashid (m.id x) = h ∧ x ∈ m.live

/-- The table with the buckets `L` holds `M`. -/
structure Holds (m : Intmap) (L : Nat → List Nat) (M : UInt64 → Option Nat) : Prop where
  bucket : ∀ h, m.Bucket h (L h)
  get : ∀ k v, M k = some v ↔ ∃ x ∈ L (hashid k), m.id x = k ∧ m.aux x = v

theorem Holds.empty : empty.Holds (fun _ => []) fun _ => none :=
  ⟨fun _ => ⟨rfl, nodup_nil, fun _ h => absurd h not_mem_nil⟩, by simp⟩

section
variable {m : Intmap} {L : Nat → List Nat} {M : UInt64 → Option Nat} {k : UInt64}

theorem Bucket.congr {m' : Intmap} {h : Nat} {l : List Nat} (b : m.Bucket h l)
    (hh : m'.link (.hash h) = m.link (.hash h))
    (hx : ∀ x ∈ l, m'.next x = m.next x ∧ m'.id x = m.id x) (hl : ∀ x ∈ l, x ∈ m.live → x ∈ m'.live) :
    m'.Bucket h l := by
  refine ⟨?_, ?_, fun x hxl => ?_⟩
  · rw [hh]
    exact b.chain.congr fun x hxl => (hx x hxl).1
  · rw [map_congr_left fun x hxl => (hx x hxl).2]
    exact b.keys
  · rw [(hx x hxl).2]
    exact ⟨(b.mem x hxl).1, hl x hxl (b.mem x hxl).2⟩

theorem Bucket.length_le {h : Nat} {l : List Nat} (b : m.Bucket h l) : l.length ≤ m.live.length :=
  (b.keys.of_map.subperm fun x hx => (b.mem x hx).2).length_le

/-- The search stops at the end of a chain without the key, or at the link to the element; without this link the
chain is one without the element. -/
theorem llookup_spec {l : List Nat} {lf : Cell} {fuel : Nat} (h : Chain m.next (m.link lf) l)
    (hk : (l.map m.id).Nodup) (hlf : ∀ x ∈ l, lf ≠ .elem x) (hf : l.length < fuel) :
    ∃ lf', m.llookup k fuel lf = some lf' ∧ (lf' = lf ∨ ∃ y ∈ l, lf' = .elem y) ∧
      (m.link lf' = 0 ∧ (∀ x ∈ l, m.id x ≠ k) ∨
        m.link lf' ∈ l ∧ m.id (m.link lf') = k ∧
          ∀ w, w = update m.link lf' (m.link (.elem (m.link lf'))) →
            Chain (fun p => w (.elem p)) (w lf) (l.erase (m.link lf'))) := by
  induction l generalizing lf fuel with
  | nil =>
    obtain ⟨fuel, rfl⟩ : ∃ n, fuel = n + 1 := ⟨fuel - 1, by omega⟩
    exact ⟨lf, if_pos h, .inl rfl, .inl ⟨h, fun _ hx => absurd hx not_mem_nil⟩⟩
  | cons x l ih =>
    obtain ⟨fuel, rfl⟩ : ∃ n, fuel = n + 1 := ⟨fuel - 1, by omega⟩
    obtain ⟨hp, hx, hc⟩ := h
    obtain ⟨hxl, hk⟩ := nodup_cons.mp hk
    rw [llookup, if_neg (by rw [hp]; exact hx)]
    by_cases hid : m.id (m.link lf) = k
    · refine ⟨lf, if_pos hid, .inl rfl, .inr ⟨by rw [hp]; exact mem_cons_self, hid, ?_⟩⟩
      rintro w rfl
      rw [hp, erase_cons_head, update_self]
      exact hc.congr fun y hy => update_of_ne (hlf y (mem_cons_of_mem _ hy)).symm _ _
    · have hxy : ∀ y ∈ l, Cell.elem x ≠ .elem y := by
        rintro y hy heq
        cases heq
        exact hxl (mem_map_of_mem hy)
      obtain ⟨lf', hl, hin, hend⟩ := @ih (.elem x) fuel hc hk hxy (by simpa using hf)
      have hne : lf ≠ lf' := by
        rcases hin with rfl | ⟨y, hy, rfl⟩
        · exact hlf x mem_cons_self
        · exact hlf y (mem_cons_of_mem _ hy)
      have hin' : ∃ y ∈ x :: l, lf' = .elem y := by
        rcases hin with rfl | ⟨y, hy, rfl⟩
        · exact ⟨x, mem_cons_self, rfl⟩
        · exact ⟨y, mem_cons_of_mem _ hy, rfl⟩
      refine ⟨lf', by rw [if_neg hid, hp]; exact hl, .inr hin', hend.imp ?_ ?_⟩
      · rintro ⟨h0, hno⟩
        exact ⟨h0, forall_mem_cons.mpr ⟨by rw [← hp]; exact hid, hno⟩⟩
      · rintro ⟨hmem, hkey, hrest⟩
        refine ⟨mem_cons_of_mem _ hmem, hkey, fun w hw => ?_⟩
        have hne' : x ≠ m.link lf' := by
          rintro rfl
          exact hxl (mem_map_of_mem hmem)
        rw [erase_cons_tail (by simpa using hne')]
        refine ⟨?_, hx, hrest w hw⟩
        rw [hw, update_of_ne hne, hp]

/-- One key has another value now: the elements of the others are the same. -/
theorem Holds.get_update (h : m.Holds L M) {m' : Intmap} {L' : Nat → List Nat} {o : Option Nat}
    (hk : ∀ v, o = some v ↔ ∃ x ∈ L' (hashid k), m'.id x = k ∧ m'.aux x = v)
    (hne : ∀ k' x, k' ≠ k → (x ∈ L' (hashid k') ∧ m'.id x = k' ↔ x ∈ L (hashid k') ∧ m.id x = k'))
    (haux : ∀ x, m'.id x ≠ k → m'.aux x = m.aux x) (k' : UInt64) (v : Nat) :
    update M k o k' = some v ↔ ∃ x ∈ L' (hashid k'), m'.id x = k' ∧ m'.aux x = v := by
  by_cases hk' : k' = k
  · subst hk'
    rw [update_self]
    exact hk v
  · rw [update_of_ne hk', h.get]
    refine exists_congr fun x => ⟨?_, ?_⟩
    · rintro ⟨hx, hid, hv⟩
      have hx' := (hne k' x hk').mpr ⟨hx, hid⟩
      exact ⟨hx'.1, hx'.2, by rw [haux x (by rw [hx'.2]; exact hk'), hv]⟩
    · rintro ⟨hx, hid, hv⟩
      have hx' := (hne k' x hk').mp ⟨hx, hid⟩
      exact ⟨hx'.1, hx'.2, by rw [← haux x (by rw [hid]; exact hk'), hv]⟩

theorem Holds.set (h : m.Holds L M) {f : Nat} (hf : f ∈ L (hashid k)) (hk : m.id f = k) (v : Nat) :
    { m with aux := update m.aux f v }.Holds L (update M k (some v)) := by
  refine ⟨fun i => (h.bucket i).congr rfl (fun _ _ => ⟨rfl, rfl⟩) fun _ _ hx => hx,
    h.get_update (fun w => ?_) (fun _ _ _ => Iff.rfl) fun x hx => update_of_ne (fun e => hx (by rw [e]; exact hk)) _ _⟩
  constructor
  · rintro ⟨⟩
    exact ⟨f, hf, hk, update_self ..⟩
  · rintro ⟨x, hx, hxk, hxv⟩
    rw [inj_on_of_nodup_map (h.bucket _).keys hx hf (hxk.trans hk.symm)] at hxv
    rw [← hxv]
    exact congrArg some (update_self f v m.aux).symm

theorem push_spec (v f : Nat) :
    (m.push k v f).link (.hash (hashid k)) = f ∧ (m.push k v f).next f = m.link (.hash (hashid k)) ∧
      (m.push k v f).id f = k ∧ (m.push k v f).aux f = v ∧
      (∀ i ≠ hashid k, (m.push k v f).link (.hash i) = m.link (.hash i)) ∧
      ∀ x ≠ f, (m.push k v f).aux x = m.aux x ∧ (m.push k v f).next x = m.next x ∧
        (m.push k v f).id x = m.id x := by
  refine ⟨update_self .., ?_, update_self .., update_self .., fun i hi => ?_,
    fun x hx => ⟨update_of_ne hx _ _, ?_, update_of_ne hx _ _⟩⟩
  · simp [next, push]
  · simp [push, hi]
  · simp [next, push, hx]

theorem Holds.push (h : m.Holds L M) (hk : M k = none) (v : Nat) {f : Nat} (hf0 : f ≠ 0) (hf : f ∉ m.live) :
    ∃ L', (m.push k v f).Holds L' (update M k (some v)) := by
  obtain ⟨hlink, hnext, hid, haux, hother, hsame⟩ := push_spec (m := m) (k := k) v f
  have hlive : ∀ x ∈ m.live, x ∈ (m.push k v f).live := fun x hx => mem_cons_of_mem f hx
  have hf' : f ∈ (m.push k v f).live := mem_cons_self
  generalize m.push k v f = m' at *
  have hnew : ∀ i, ∀ x ∈ L i, x ≠ f := fun i x hx e => hf (e ▸ ((h.bucket i).mem x hx).2)
  have hkey : ∀ x ∈ L (hashid k), m.id x ≠ k := by
    intro x hx hxk
    rw [(h.get k _).mpr ⟨x, hx, hxk, rfl⟩] at hk
    cases hk
  have hold : ∀ i, ∀ x ∈ L i, m'.next x = m.next x ∧ m'.id x = m.id x := fun i x hx => (hsame x (hnew i x hx)).2
  have b := (h.bucket (hashid k)).mem
  refine ⟨update L (hashid k) (f :: L (hashid k)),
    (forall_update_iff L fun i l => Bucket _ i l).mpr ⟨?_, fun i hi => ?_⟩,
    h.get_update (fun w => ?_) (fun k' x hk' => ?_) fun x hx => (hsame x fun e => hx (e ▸ hid)).1⟩
  · refine ⟨⟨hlink, hf0, ?_⟩, ?_, forall_mem_cons.mpr ⟨⟨by rw [hid], hf'⟩, fun x hx => ?_⟩⟩
    · rw [hnext]
      exact (h.bucket _).chain.congr fun x hx => (hold _ x hx).1
    · rw [map_cons, hid, map_congr_left fun x hx => (hold _ x hx).2, nodup_cons]
      refine ⟨fun hmem => ?_, (h.bucket _).keys⟩
      obtain ⟨x, hx, hxk⟩ := mem_map.mp hmem
      exact hkey x hx hxk
    · rw [(hold _ x hx).2]
      exact ⟨(b x hx).1, hlive x (b x hx).2⟩
  · exact (h.bucket i).congr (hother i hi) (hold i) fun x _ => hlive x
  · rw [update_self]
    constructor
    · rintro ⟨⟩
      exact ⟨f, mem_cons_self, hid, haux⟩
    · rintro ⟨x, hx, hxk, rfl⟩
      rcases mem_cons.mp hx with rfl | hx
      · rw [haux]
      · rw [(hold _ x hx).2] at hxk
        exact absurd hxk (hkey x hx)
  · by_cases hxf : x = f
    · subst hxf
      rw [hid]
      exact iff_of_false (fun hx => hk' hx.2.symm) fun hx => hnew _ x hx.1 rfl
    · rw [(hsame x hxf).2.2]
      by_cases hh : hashid k' = hashid k
      · rw [hh, update_self, mem_cons, or_iff_right hxf]
      · rw [update_of_ne hh]

theorem Holds.delete (h : m.Holds L M) {lf : Cell} {f : Nat}
    (hlf : lf = .hash (hashid k) ∨ ∃ y ∈ L (hashid k), lf = .elem y) (hf : f ∈ L (hashid k)) (hk : m.id f = k)
    (hc : Chain (fun p => update m.link lf (m.next f) (.elem p)) (update m.link lf (m.next f) (.hash (hashid k)))
      ((L (hashid k)).erase f)) :
    { m with link := update m.link lf (m.next f), live := m.live.erase f }.Holds
      (update L (hashid k) ((L (hashid k)).erase f)) (update M k none) := by
  have b := h.bucket (hashid k)
  have hnd : (L (hashid k)).Nodup := b.keys.of_map
  have hne : ∀ x, m.id x ≠ k → x ≠ f := by
    rintro x hx rfl
    exact hx hk
  refine ⟨(forall_update_iff L fun i l => Bucket _ i l).mpr ⟨⟨hc, ?_, fun x hx => ?_⟩, fun i hi => ?_⟩,
    h.get_update (fun w => ?_) (fun k' x hk' => ?_) fun _ _ => rfl⟩
  · exact b.keys.sublist (erase_sublist.map _)
  · obtain ⟨hxf, hx⟩ := hnd.mem_erase_iff.mp hx
    exact ⟨(b.mem x hx).1, (mem_erase_of_ne hxf).mpr (b.mem x hx).2⟩
  · have hx : ∀ x ∈ L i, x ∉ L (hashid k) := fun x hx hx' => hi (((h.bucket i).mem x hx).1.symm.trans (b.mem x hx').1)
    refine (h.bucket i).congr (update_of_ne ?_ _ _) (fun x hxi => ⟨update_of_ne ?_ _ _, rfl⟩) fun x hxi hl => ?_
    · rcases hlf with rfl | ⟨y, -, rfl⟩
      · simpa using hi
      · simp
    · rcases hlf with rfl | ⟨y, hy, rfl⟩
      · simp
      · rintro ⟨⟩
        exact hx _ hxi hy
    · exact (mem_erase_of_ne fun e => hx x hxi (by rw [e]; exact hf)).mpr hl
  · rw [update_self]
    refine iff_of_false (by simp) ?_
    rintro ⟨x, hx, hxk, -⟩
    obtain ⟨hxf, hx⟩ := hnd.mem_erase_iff.mp hx
    exact hxf (inj_on_of_nodup_map b.keys hx hf (hxk.trans hk.symm))
  · refine and_congr_left fun hxk => ?_
    by_cases hh : hashid k' = hashid k
    · rw [hh, update_self, mem_erase_of_ne (hne x (by rw [hxk]; exact hk'))]
    · rw [update_of_ne hh]

/-- What the search finds: that there is no element, or the one that can be read, changed and taken out. -/
theorem Holds.lookup (h : m.Holds L M) (k : UInt64) : ∃ lf, m.lookup k = some lf ∧
    (m.link lf = 0 ∧ M k = none ∨
      m.link lf ≠ 0 ∧ M k = some (m.aux (m.link lf)) ∧
        (∀ v, ∃ L', { m with aux := update m.aux (m.link lf) v }.Holds L' (update M k (some v))) ∧
        ∃ L', { m with link := update m.link lf (m.next (m.link lf)), live := m.live.erase (m.link lf) }.Holds L'
          (update M k none)) := by
  have b := h.bucket (hashid k)
  obtain ⟨lf, hlf, hin, hend⟩ := llookup_spec (k := k) b.chain b.keys (by simp) (Nat.lt_succ_of_le b.length_le)
  refine ⟨lf, hlf, hend.imp ?_ ?_⟩
  · rintro ⟨h0, hno⟩
    refine ⟨h0, Option.eq_none_iff_forall_not_mem.mpr fun v hv => ?_⟩
    obtain ⟨x, hx, hxk, -⟩ := (h.get k v).mp hv
    exact hno x hx hxk
  · rintro ⟨hf, hk, hc⟩
    exact ⟨b.chain.ne_zero _ hf, (h.get k _).mpr ⟨_, hf, hk, rfl⟩, fun v => ⟨L, h.set hf hk v⟩, _,
      h.delete hin hf hk (hc _ rfl)⟩

/-! ## Sequences of calls -/

/-- `malloc` gives a new key an element that is not in use. -/
def Call.Given (s : Intmap × (UInt64 → Option Nat)) : Call → Prop
  | .insert k _ f | .canInsert k _ f => s.2 k = none → f ≠ 0 ∧ f ∉ s.1.live
  | _ => True

instance (s : Intmap × (UInt64 → Option Nat)) : (c : Call) → Decidable (c.Given s)
  | .insert k _ f | .canInsert k _ f => inferInstanceAs (Decidable (s.2 k = none → f ≠ 0 ∧ f ∉ s.1.live))
  | .lookup _ | .delete _ => instDecidableTrue

/-- The call returns what it returns on the map, and leaves what it leaves of it. -/
def Serves (m : Intmap) (M : UInt64 → Option Nat) (c : Call) : Prop :=
  ∃ m' L', m.step c = some ((c.on M).1, m') ∧ m'.Holds L' (c.on M).2

theorem Holds.serves (h : m.Holds L M) {c : Call} (hc : c.Given (m, M)) : m.Serves M c := by
  cases c with
  | lookup k =>
    refine ⟨m, L, ?_, h⟩
    obtain ⟨lf, hlf, ⟨h0, hM⟩ | ⟨h0, hM, -⟩⟩ := h.lookup k <;> simp [step, lookupkey, Call.on, hlf, h0, hM]
  | delete k =>
    obtain ⟨lf, hlf, ⟨h0, hM⟩ | ⟨h0, hM, -, L', hL'⟩⟩ := h.lookup k
    · refine ⟨m, L, by simp [step, deletekey, Call.on, hlf, h0, hM], ?_⟩
      show m.Holds L (update M k none)
      rwa [← hM, update_eq_self]
    · exact ⟨_, L', by simp [step, deletekey, Call.on, hlf, h0, hM, next], hL'⟩
  | insert k v f =>
    obtain ⟨lf, hlf, ⟨h0, hM⟩ | ⟨h0, hM, hset, -⟩⟩ := h.lookup k
    · obtain ⟨L', hL'⟩ := h.push hM v (hc hM).1 (hc hM).2
      exact ⟨_, L', by simp [step, insertkey, Call.on, hlf, h0, hM], hL'⟩
    · obtain ⟨L', hL'⟩ := hset v
      exact ⟨_, L', by simp [step, insertkey, Call.on, hlf, h0, hM], hL'⟩
  | canInsert k v f =>
    obtain ⟨lf, hlf, ⟨h0, hM⟩ | ⟨h0, hM, -⟩⟩ := h.lookup k
    · obtain ⟨L', hL'⟩ := h.push hM v (hc hM).1 (hc hM).2
      exact ⟨m.push k v f, L', by simp [step, caninsertkey, Call.on, hlf, h0, hM], by simpa [Call.on, hM]⟩
    · exact ⟨m, L, by simp [step, caninsertkey, Call.on, hlf, h0, hM], by simpa [Call.on, hM]⟩

end

end Intmap

open Intmap

/-- The table and the map it should be, after a call. -/
def callBoth (s : Intmap × (UInt64 → Option Nat)) (c : Call) : Option (Intmap × (UInt64 → Option Nat)) :=
  (s.1.step c).map fun r => (r.2, (c.on s.2).2)

/-- The calls on the table, and on the map it should be, with what `malloc` returned in them. -/
def Calls := Run (guard (fun s c => Call.Given s c) fun s c s' => callBoth s c = some s')

/-- **The table as a finite map.**  After every sequence of calls on an empty table, the next call is the call on the
map, and keeps each key once in its bucket. -/
theorem intmap {cs : List Call} {s : Intmap × (UInt64 → Option Nat)} (h : Calls (empty, fun _ => none) cs s)
    {c : Call} (hc : c.Given s) : s.1.Serves s.2 c := by
  have hinv : ∃ L, s.1.Holds L s.2 := by
    refine Run.inv (I := fun s => ∃ L, s.1.Holds L s.2) ?_ h ⟨_, Holds.empty⟩
    rintro s c s' ⟨L, h⟩ ⟨hc, hs⟩
    obtain ⟨m', L', hstep, hL'⟩ := h.serves hc
    rw [callBoth, hstep] at hs
    cases hs
    exact ⟨L', hL'⟩
  obtain ⟨L, hL⟩ := hinv
  exact hL.serves hc

/-- Three keys of one bucket; the third is put where the first was. -/
theorem intmap_reused : ∃ s,
    Calls (empty, fun _ => none) [.insert 5 7 24, .insert 133 8 48, .delete 5, .insert 261 9 24] s ∧
      s.1.live = [24, 48] ∧ s.2 133 = some 8 ∧ s.1.Serves s.2 (.canInsert 133 6 72) := by
  obtain ⟨s, h, hlive, hM⟩ : ∃ s,
      Calls (empty, fun _ => none) [.insert 5 7 24, .insert 133 8 48, .delete 5, .insert 261 9 24] s ∧
        s.1.live = [24, 48] ∧ s.2 133 = some 8 := ⟨_, Run.of_guardStep (f := callBoth) rfl, rfl, rfl⟩
  exact ⟨s, h, hlive, hM, intmap h fun hnone => by simp [hM] at hnone⟩

end InternetOs.User
