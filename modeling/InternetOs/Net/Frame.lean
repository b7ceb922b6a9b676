import Mathlib.Data.List.GetD
import Mathlib.Data.UInt
import InternetOs.Lib.OnesComplement
import InternetOs.Net.Receive

/-!
# Frames (`tcp_send_core`, `udp_send`, `ip_send`, `eth_send`)

The sending side down to the bytes that are handed to the device, and what the receiving side makes
of them.  Each layer prepends its header to the bytes of the mbuf; the two checksums are computed
over a header whose checksum field is 0 and then stored in it.

    ethRecvOn dst … = tcpRecvAt … with the header and the text that were sent      (frameRoundTrip)
    cksum16 = the complement of the one's-complement sum of the words              (internetChecksum)
-/

namespace InternetOs.Net

open OnesComplement List Stack Mbuf

/-! ## Sending -/

/-- A field stored by `htons`. -/
def be16Bytes (v : UInt16) : List UInt8 := [(v >>> 8).toUInt8, v.toUInt8]

/-- A field stored by `htonl`. -/
def be32Bytes (v : UInt32) : List UInt8 := be16Bytes (v >>> 16).toUInt16 ++ be16Bytes v.toUInt16

/-- Stores to the bytes from `i` on. -/
def putBytes (buf : Nat → UInt8) (i : Nat) (bs : List UInt8) (j : Nat) : UInt8 :=
  if i ≤ j ∧ j < i + bs.length then bs.getD (j - i) 0 else buf j

abbrev Mac := Fin 6 → UInt8

def localMac : Mac := ![0x52, 0x54, 0x00, 0x12, 0x34, 0x56]

def broadcastMac : Mac := ![0xff, 0xff, 0xff, 0xff, 0xff, 0xff]

/-- `struct eth`. -/
def ethHdrBytes (dhost shost : Mac) (type : UInt16) : List UInt8 :=
  [dhost 0, dhost 1, dhost 2, dhost 3, dhost 4, dhost 5, shost 0, shost 1, shost 2, shost 3, shost 4, shost 5] ++
    be16Bytes type

/-- `struct ipv4` as `ip_send` fills it. -/
def ipHdrBytes (len : UInt16) (p : UInt8) (sum : UInt16) (src dst : UInt32) : List UInt8 :=
  [0x45, 0] ++ be16Bytes len ++ [0, 0, 0, 0, 100, p] ++ be16Bytes sum ++ be32Bytes src ++ be32Bytes dst

/-- `struct tcp`. -/
def tcpHdrBytes (sport dport : UInt16) (seq ack : UInt32) (off flg : UInt8) (wnd sum urg : UInt16) : List UInt8 :=
  be16Bytes sport ++ be16Bytes dport ++ be32Bytes seq ++ be32Bytes ack ++ [off, flg] ++ be16Bytes wnd ++
    be16Bytes sum ++ be16Bytes urg

/-- `struct udp`. -/
def udpHdrBytes (sport dport ulen sum : UInt16) : List UInt8 :=
  be16Bytes sport ++ be16Bytes dport ++ be16Bytes ulen ++ be16Bytes sum

/-- What becomes of a frame: it goes to the device, or waits for the answer to an ARP request. -/
inductive EthOut
  | transmit (m : Mbuf)
  | arpWait (m : Mbuf)

/-- `eth_send`; `arp` is `arptable_get_mac`.  `none` is the panic of `mbufpush`. -/
def ethSend (arp : UInt32 → Option Mac) (m : Mbuf) (ethtype : UInt16) (dip : UInt32) : Option EthOut :=
  let send (dhost : Mac) : Option EthOut := (mbufpush m 14).map fun r =>
    .transmit { r.2 with buf := putBytes r.2.buf r.1 (ethHdrBytes dhost localMac ethtype) }
  match arp dip with
  | some dhost => send dhost
  | none => if ethtype ≠ 0x0806 then some (.arpWait m) else send broadcastMac

/-- `ip_send` on the host with the address `localIp`. -/
def ipSend (localIp : UInt32) (arp : UInt32 → Option Mac) (m : Mbuf) (proto : UInt8) (dip : UInt32) :
    Option EthOut :=
  (mbufpush m 20).bind fun r =>
    let buf := putBytes r.2.buf r.1 (ipHdrBytes (UInt16.ofNat r.2.len) proto 0 localIp dip)
    let buf := putBytes buf (r.1 + 10) (be16Bytes (cksum16 buf r.1 20 0))
    ethSend arp { r.2 with buf := buf } 0x0800 dip

/-- The sum over the pseudo header in `tcp_checksum`, of addresses in network order. -/
def pseudoSum (src dst : UInt32) (p : UInt8) (len : UInt16) : UInt32 :=
  src.toUInt16.toUInt32 + (src >>> 16).toUInt16.toUInt32 + dst.toUInt16.toUInt32 +
    (dst >>> 16).toUInt16.toUInt32 + p.toUInt32 + len.toUInt32

/-- `tcp_send_core` on the host with the address `localIp`, down to the frame. -/
def tcpSendFrame (localIp : UInt32) (arp : UInt32 → Option Mac) (m : Mbuf) (raddr : UInt32) (sport dport : UInt16)
    (sndnxt rcvnxt rcvwnd : UInt32) (flg : UInt8) (payloadLen : UInt16) : Option EthOut :=
  (mbufpush m 20).bind fun r =>
    let ack := if tcpFlgIsset flg tcpFlgAck then rcvnxt else 0
    let buf := putBytes r.2.buf r.1 (tcpHdrBytes sport dport sndnxt ack 0x50 flg rcvwnd.toUInt16 0 0)
    let len := payloadLen + 20
    let sum := cksum16 buf r.1 len.toNat (pseudoSum localIp raddr 6 len)
    ipSend localIp arp { r.2 with buf := putBytes buf (r.1 + 16) (be16Bytes sum) } 6 raddr

def udpSend (localIp : UInt32) (arp : UInt32 → Option Mac) (m : Mbuf) (dip : UInt32) (sport dport : UInt16) :
    Option EthOut :=
  (mbufpush m 8).bind fun r =>
    ipSend localIp arp
      { r.2 with buf := putBytes r.2.buf r.1 (udpHdrBytes sport dport (UInt16.ofNat r.2.len) 0) } 17 dip

/-- The mbuf in which `socksend` puts its bytes. -/
def payloadMbuf (payload : List UInt8) : Option Mbuf :=
  (mbufalloc ethMaxSize).bind fun m =>
    (mbufpush m payload.length).map fun r => { r.2 with buf := putBytes r.2.buf r.1 payload }

/-- `TCP_MAX_DATA`. -/
def tcpMaxData : Nat := ethMaxSize - 14 - 20 - 20

/-- `UDP_MAX_DATA`. -/
def udpMaxData : Nat := ethMaxSize - 14 - 20 - 8

/-! ## Bytes of an mbuf -/

/-- A list of bytes as a buffer that starts with it. -/
def asBuf (l : List UInt8) (j : Nat) : UInt8 := l.getD j 0

theorem asBuf_append_left {l l' : List UInt8} {j : Nat} (h : j < l.length) : asBuf (l ++ l') j = asBuf l j :=
  getD_append l l' 0 j h

theorem asBuf_append_right (l l' : List UInt8) (j : Nat) : asBuf (l ++ l') (l.length + j) = asBuf l' j := by
  unfold asBuf
  rw [getD_append_right _ _ _ _ (Nat.le_add_right _ _), Nat.add_sub_cancel_left]

theorem Mbuf.buf_eq (m : Mbuf) {j : Nat} (h : j < m.len) : m.buf (m.head + j) = asBuf m.data j := by
  unfold asBuf data
  rw [getD_eq_getElem _ _ (by simpa using h), getElem_map, getElem_range]

theorem Mbuf.data_put (m : Mbuf) (k : Nat) (bs : List UInt8) (h : k + bs.length ≤ m.len) :
    { m with buf := putBytes m.buf (m.head + k) bs }.data = m.data.take k ++ bs ++ m.data.drop (k + bs.length) := by
  refine ext_getElem ?_ fun j h1 h2 => ?_
  · simp
    omega
  · simp only [data, getElem_map, getElem_range, putBytes, Nat.add_le_add_iff_left, add_assoc,
      Nat.add_lt_add_iff_left, getElem_append, getElem_take, length_take, length_map,
      length_range, getElem_drop, length_append, Nat.add_sub_add_left]
    have hk : min k m.len = k := by omega
    simp only [hk]
    by_cases h1 : j < k
    · rw [if_neg (by omega), dif_pos (by omega), dif_pos h1]
    · by_cases h2 : j < k + bs.length
      · rw [if_pos ⟨by omega, h2⟩, dif_pos h2, dif_neg h1, getD_eq_getElem]
      · rw [if_neg (by omega), dif_neg h2]
        congr 2
        omega

theorem Mbuf.push_put (m : Mbuf) (hdr : List UInt8) (h : hdr.length ≤ m.head) :
    ∃ r, mbufpush m hdr.length = some r ∧ r.1 = r.2.head ∧ r.2.head + hdr.length = m.head ∧
      r.2.len = m.len + hdr.length ∧ { r.2 with buf := putBytes r.2.buf r.1 hdr }.data = hdr ++ m.data := by
  let m' : Mbuf := { m with head := m.head - hdr.length, len := m.len + hdr.length }
  have hdrop : m'.data.drop hdr.length = m.data := by
    rw [← mbufpull_data m' hdr.length (Nat.le_add_left _ _)]
    unfold mbufpull
    simp [m', Nat.sub_add_cancel h]
  refine ⟨(m'.head, m'), ?_, rfl, Nat.sub_add_cancel h, rfl, ?_⟩
  · unfold mbufpush
    rw [if_neg (by omega)]
  · have hput := m'.data_put 0 hdr (by simp [m'])
    rw [zero_add, hdrop] at hput
    exact hput

theorem Mbuf.data_cut (m : Mbuf) {k : Nat} (h : k ≤ m.len) : { m with len := k }.data = m.data.take k := by
  refine ext_getElem (by simpa using h) fun j h1 h2 => ?_
  simp [data]

/-! ## Fields -/

section
variable {b b' : Nat → UInt8} {i i' : Nat}

theorem be16_toNat (b : Nat → UInt8) (i : Nat) : (be16 b i).toNat = (b i).toNat * 256 + (b (i + 1)).toNat := by
  have h0 := (b i).toNat_lt
  have h1 := (b (i + 1)).toNat_lt
  have hor := Nat.two_pow_add_eq_or_of_lt (i := 8) h1 (b i).toNat
  simp only [be16, UInt16.toNat_or, UInt16.toNat_shiftLeft, UInt8.toNat_toUInt16]
  rw [show (8 : UInt16).toNat % 16 = 8 from rfl, Nat.shiftLeft_eq, Nat.mod_eq_of_lt (by omega), mul_comm, ← hor]

theorem be32_toNat (b : Nat → UInt8) (i : Nat) :
    (be32 b i).toNat = (be16 b i).toNat * 65536 + (be16 b (i + 2)).toNat := by
  have h0 := (be16 b i).toNat_lt
  have h1 := (be16 b (i + 2)).toNat_lt
  have hor := Nat.two_pow_add_eq_or_of_lt (i := 16) h1 (be16 b i).toNat
  simp only [be32, UInt32.toNat_or, UInt32.toNat_shiftLeft, UInt16.toNat_toUInt32]
  rw [show (16 : UInt32).toNat % 32 = 16 from rfl, Nat.shiftLeft_eq, Nat.mod_eq_of_lt (by omega), mul_comm, ← hor]

theorem be16_of_bytes {v : UInt16} (h0 : b i = (v >>> 8).toUInt8) (h1 : b (i + 1) = v.toUInt8) : be16 b i = v := by
  refine UInt16.toNat_inj.mp ?_
  have hv := v.toNat_lt
  rw [be16_toNat, h0, h1]
  simp only [UInt16.toNat_toUInt8, UInt16.toNat_shiftRight]
  rw [show (8 : UInt16).toNat % 16 = 8 from rfl]
  omega

theorem be32_of_words {v : UInt32} (h0 : be16 b i = (v >>> 16).toUInt16) (h1 : be16 b (i + 2) = v.toUInt16) :
    be32 b i = v := by
  refine UInt32.toNat_inj.mp ?_
  have hv := v.toNat_lt
  rw [be32_toNat, h0, h1]
  simp only [UInt32.toNat_toUInt16, UInt32.toNat_shiftRight]
  rw [show (16 : UInt32).toNat % 32 = 16 from rfl]
  omega

/-! ## Checksums -/

theorem cksumSum_toNat (b : Nat → UInt8) (n i : Nat) (sum : UInt32) :
    (cksumSum b n i sum).toNat = (sum.toNat + wordSum b n i) % 2 ^ 32 := by
  have hshift : ∀ x : UInt8, (x.toUInt32 <<< 8).toNat = x.toNat * 256 := by
    intro x
    have hx := x.toNat_lt
    rw [UInt32.toNat_shiftLeft, UInt8.toNat_toUInt32, show (8 : UInt32).toNat % 32 = 8 from rfl]
    omega
  fun_induction cksumSum b n i sum with
  | case1 i sum =>
    have := sum.toNat_lt
    rw [wordSum]
    omega
  | case2 i sum => rw [wordSum, UInt32.toNat_add, hshift]
  | case3 n i sum ih =>
    rw [ih, wordSum, UInt32.toNat_add, UInt32.toNat_add, hshift, UInt8.toNat_toUInt32]
    omega

theorem fold_toNat (s : UInt32) : ((s &&& (0xffff : UInt32)) + (s >>> (16 : UInt32))).toNat = fold s.toNat := by
  have hs := s.toNat_lt
  rw [UInt32.toNat_add, UInt32.toNat_and, UInt32.toNat_shiftRight, show (16 : UInt32).toNat % 32 = 16 from rfl,
    Nat.shiftRight_eq_div_pow, show (0xffff : UInt32).toNat = 2 ^ 16 - 1 from rfl, Nat.and_two_pow_sub_one_eq_mod]
  unfold fold
  omega

theorem cksum16_toNat {n : Nat} {init : UInt32} (h : init.toNat + wordSum b n i < 2 ^ 32) :
    (cksum16 b i n init).toNat = 65535 - fold (fold (init.toNat + wordSum b n i)) := by
  have hle := fold_fold_le h
  unfold cksum16
  simp only [UInt16.toNat_not, UInt32.toNat_toUInt16]
  rw [fold_toNat, fold_toNat, cksumSum_toNat, Nat.mod_eq_of_lt h, show UInt16.size = 65536 from rfl]
  omega

/-- **A stored checksum verifies.**  `b` has 0 at the place of the checksum, `b'` the sum over `b`; otherwise
they agree, though the bytes may stand elsewhere. -/
theorem cksum16_verifies {k r : Nat} {init : UInt32} (hn : 2 * k + (2 + r) ≤ 65535) (hinit : init.toNat ≤ 2 ^ 20)
    (hsame : ∀ j, j < 2 * k + (2 + r) → j ≠ 2 * k → j ≠ 2 * k + 1 → b' (i' + j) = b (i + j))
    (h0 : b (i + 2 * k) = 0) (h1 : b (i + 2 * k + 1) = 0)
    (hsum : be16 b' (i' + 2 * k) = cksum16 b i (2 * k + (2 + r)) init) :
    cksum16 b' i' (2 * k + (2 + r)) init = 0 := by
  have hle := wordSum_le b (2 * k + (2 + r)) i
  have hc : (cksum16 b i (2 * k + (2 + r)) init).toNat =
      65535 - fold (fold (init.toNat + wordSum b (2 * k + (2 + r)) i)) := cksum16_toNat (by omega)
  -- the two sums differ by the word that was stored
  have hdiff : wordSum b' (2 * k + (2 + r)) i' =
      wordSum b (2 * k + (2 + r)) i + (cksum16 b i (2 * k + (2 + r)) init).toNat := by
    have hhead : wordSum b' (2 * k) i' = wordSum b (2 * k) i :=
      wordSum_congr fun j hj => hsame j (by omega) (by omega) (by omega)
    have htail : wordSum b' r (i' + 2 * k + 2) = wordSum b r (i + 2 * k + 2) :=
      wordSum_congr fun j hj => by
        have := hsame (2 * k + 2 + j) (by omega) (by omega) (by omega)
        rwa [← add_assoc, ← add_assoc, ← add_assoc] at this
    rw [← hsum, be16_toNat, wordSum_at b', wordSum_at b, h0, h1]
    simp only [UInt8.toNat_zero]
    omega
  refine UInt16.toNat_inj.mp ?_
  rw [cksum16_toNat (by omega), hdiff, ← add_assoc, hc, fold_complement (by omega)]
  rfl

theorem cksum16_congr {n : Nat} {init : UInt32} (h : ∀ j, j < n → b (i + j) = b' (i' + j)) :
    cksum16 b i n init = cksum16 b' i' n init := by
  have hsum : cksumSum b n i init = cksumSum b' n i' init := by
    refine UInt32.toNat_inj.mp ?_
    rw [cksumSum_toNat, cksumSum_toNat, wordSum_congr h]
  unfold cksum16
  rw [hsum]

end

theorem be16_putBytes (b : Nat → UInt8) (i : Nat) (v : UInt16) : be16 (putBytes b i (be16Bytes v)) i = v :=
  be16_of_bytes (by simp [putBytes, be16Bytes]) (by simp [putBytes, be16Bytes])

theorem putBytes_be16_ne {b : Nat → UInt8} {i j : Nat} {v : UInt16} (h0 : j ≠ i) (h1 : j ≠ i + 1) :
    putBytes b i (be16Bytes v) j = b j := by
  unfold putBytes
  rw [if_neg]
  simp only [be16Bytes, length_cons, length_nil]
  omega

theorem cksum16_bound (b : Nat → UInt8) {n i : Nat} {init : UInt32} (hn : n ≤ 65535)
    (hinit : init.toNat ≤ 6 * 65535) : init.toNat + wordSum b n i < 2 ^ 32 := by
  have hle := wordSum_le b n i
  omega

/-- A checksum that verifies is one over a multiple of 65535. -/
theorem mod_of_cksum16_eq_zero {b : Nat → UInt8} {n i : Nat} {init : UInt32}
    (hlt : init.toNat + wordSum b n i < 2 ^ 32) (h : cksum16 b i n init = 0) :
    (init.toNat + wordSum b n i) % 65535 = 0 := by
  have hc := cksum16_toNat hlt
  rw [h] at hc
  have hf := folds_fold hlt
  have hle := hf.le
  have hm := hf.mod
  rw [UInt16.toNat_zero] at hc
  omega

/-- **The Internet checksum.**  `cksum16` is the complement of the one's-complement sum of the words, whatever their
order; it verifies where it is stored, and no longer once a word is changed. -/
theorem internetChecksum (b : Nat → UInt8) (i n : Nat) (init : UInt32) (hn : n ≤ 65535)
    (hinit : init.toNat ≤ 6 * 65535) :
    (cksumSum b n i init).toNat = init.toNat + (words b n i).sum ∧ fold (fold (cksumSum b n i init).toNat) ≤ 65535 ∧
      (cksum16 b i n init).toNat = 65535 - sum16 (init.toNat % 65536 :: init.toNat / 65536 :: words b n i) ∧
      (∀ b' i', (words b' n i').Perm (words b n i) → cksum16 b' i' n init = cksum16 b i n init) ∧
      ∀ k, 2 * k + 1 < n → ∀ b0 b1, b0 = putBytes b (i + 2 * k) (be16Bytes 0) →
        b1 = putBytes b0 (i + 2 * k) (be16Bytes (cksum16 b0 i n init)) →
        cksum16 b1 i n init = 0 ∧
          ∀ b2 l l' v w, words b1 n i = l ++ v :: l' → words b2 n i = l ++ w :: l' → w % 65535 ≠ v % 65535 →
            cksum16 b2 i n init ≠ 0 := by
  have hlt := fun b' i' => cksum16_bound b' (i := i') hn hinit
  have hsum : (cksumSum b n i init).toNat = init.toNat + (words b n i).sum := by
    rw [cksumSum_toNat, Nat.mod_eq_of_lt (hlt b i), sum_words]
  refine ⟨hsum, ?_, ?_, fun b' i' hperm => ?_, ?_⟩
  · rw [hsum, sum_words]
    exact fold_fold_le (hlt b i)
  · -- both are the word for the same sum
    have hws : ∀ w ∈ init.toNat % 65536 :: init.toNat / 65536 :: words b n i, w ≤ 65535 := by
      refine forall_mem_cons.mpr ⟨by omega, forall_mem_cons.mpr ⟨by omega, words_le b n i⟩⟩
    have hinit16 : Folds (fold (fold (init.toNat + wordSum b n i)))
        (init.toNat % 65536 :: init.toNat / 65536 :: words b n i).sum := by
      have hf := folds_fold (hlt b i)
      rw [sum_cons, sum_cons, sum_words]
      exact ⟨hf.le, by have := hf.mod; omega, by have := hf.zero; omega⟩
    rw [cksum16_toNat (hlt b i), hinit16.unique (folds_sum16 hws)]
  · refine UInt16.toNat_inj.mp ?_
    rw [cksum16_toNat (hlt b' i'), cksum16_toNat (hlt b i), ← sum_words, ← sum_words, hperm.sum_eq]
  · intro k hk b0 b1 hb0 hb1
    obtain ⟨r, rfl⟩ : ∃ r, n = 2 * k + (2 + r) := ⟨n - 2 * k - 2, by omega⟩
    have hver : cksum16 b1 i (2 * k + (2 + r)) init = 0 := by
      refine cksum16_verifies hn (by omega) (fun j _ h0 h1 => ?_) ?_ ?_ (hb1 ▸ be16_putBytes _ _ _)
      · rw [hb1, putBytes_be16_ne (by omega) (by omega)]
      · simp [hb0, putBytes, be16Bytes]
      · simp [hb0, putBytes, be16Bytes]
    refine ⟨hver, fun b2 l l' v w h1 h2 hne hzero => hne ?_⟩
    have hm1 := mod_of_cksum16_eq_zero (hlt _ _) hver
    have hm2 := mod_of_cksum16_eq_zero (hlt _ _) hzero
    rw [← sum_words, h1, sum_append, sum_cons] at hm1
    rw [← sum_words, h2, sum_append, sum_cons] at hm2
    omega

theorem internetChecksum_three : 3 ≤ 65535 ∧ ∀ k, 2 * k + 1 < 3 → ∀ b0 b1,
    b0 = putBytes (fun j => if j = 2 then 7 else 0) (0 + 2 * k) (be16Bytes 0) →
    b1 = putBytes b0 (0 + 2 * k) (be16Bytes (cksum16 b0 0 3 0)) → cksum16 b1 0 3 0 = 0 :=
  ⟨by decide, fun k hk b0 b1 h0 h1 =>
    ((internetChecksum _ 0 3 0 (by decide) (by decide)).2.2.2.2 k hk b0 b1 h0 h1).1⟩

/-! ## What is sent -/

section
variable {m : Mbuf} {localIp dip : UInt32} {arp : UInt32 → Option Mac} {mac : Mac} {proto : UInt8}

theorem ethSend_data (harp : arp dip = some mac) (h : 14 ≤ m.head) (ethtype : UInt16) : ∃ m',
    ethSend arp m ethtype dip = some (.transmit m') ∧ m'.data = ethHdrBytes mac localMac ethtype ++ m.data := by
  obtain ⟨r, hr, hr1, -, -, hdata⟩ := m.push_put (ethHdrBytes mac localMac ethtype) h
  unfold ethSend
  rw [harp]
  rw [show mbufpush m 14 = some r from hr]
  exact ⟨_, rfl, hdata⟩

/-- The checksum of the IP header. -/
def ipSum (len : UInt16) (p : UInt8) (src dst : UInt32) : UInt16 :=
  cksum16 (asBuf (ipHdrBytes len p 0 src dst)) 0 20 0

/-- The bytes of an IP packet in its frame. -/
def ipFrame (mac : Mac) (src dst : UInt32) (p : UInt8) (data : List UInt8) : List UInt8 :=
  let len := UInt16.ofNat (data.length + 20)
  ethHdrBytes mac localMac 0x0800 ++ (ipHdrBytes len p (ipSum len p src dst) src dst ++ data)

theorem ipSend_data (localIp : UInt32) (proto : UInt8) (m : Mbuf) (harp : arp dip = some mac) (h : 34 ≤ m.head) : ∃ m',
    ipSend localIp arp m proto dip = some (.transmit m') ∧ m'.data = ipFrame mac localIp dip proto m.data := by
  let len := UInt16.ofNat (m.data.length + 20)
  let hdr := ipHdrBytes len proto 0 localIp dip
  obtain ⟨r, hr, hr1, hhead, hlen, hdata⟩ := m.push_put hdr (by
    change 20 ≤ m.head
    omega)
  have hlen' : UInt16.ofNat r.2.len = len := by
    rw [hlen, ← m.length_data]
    rfl
  -- the mbuf with the header whose checksum is 0
  let m1 : Mbuf := { r.2 with buf := putBytes r.2.buf r.1 hdr }
  have hsum : cksum16 m1.buf r.1 20 0 = ipSum len proto localIp dip := by
    refine cksum16_congr fun j hj => ?_
    have hj' : j < m1.len := by
      change j < r.2.len
      rw [hlen]
      change j < m.len + 20
      omega
    rw [hr1, m1.buf_eq hj', hdata, zero_add]
    exact asBuf_append_left hj
  have hput := m1.data_put 10 (be16Bytes (ipSum len proto localIp dip)) (by
    change 12 ≤ r.2.len
    rw [hlen]
    change 12 ≤ m.len + 20
    omega)
  rw [hdata] at hput
  unfold ipSend
  rw [show mbufpush m 20 = some r from hr, Option.bind_some]
  dsimp only
  rw [hlen', show putBytes r.2.buf r.1 (ipHdrBytes len proto 0 localIp dip) = m1.buf from rfl, hsum, hr1]
  obtain ⟨m', hm', hd'⟩ := ethSend_data (m := { m1 with
    buf := putBytes m1.buf (m1.head + 10) (be16Bytes (ipSum len proto localIp dip)) }) harp (by
      change 14 ≤ r.2.head
      change r.2.head + 20 = m.head at hhead
      omega) 0x0800
  refine ⟨m', hm', ?_⟩
  rw [hd', hput]
  rfl

/-- The checksum of a TCP segment. -/
def tcpSum (src dst : UInt32) (sport dport : UInt16) (seq ack : UInt32) (flg : UInt8) (wnd : UInt16)
    (payload : List UInt8) : UInt16 :=
  let len := UInt16.ofNat payload.length + 20
  cksum16 (asBuf (tcpHdrBytes sport dport seq ack 0x50 flg wnd 0 0 ++ payload)) 0 len.toNat (pseudoSum src dst 6 len)

/-- The bytes of a TCP segment. -/
def tcpBytes (src dst : UInt32) (sport dport : UInt16) (seq ack : UInt32) (flg : UInt8) (wnd : UInt16)
    (payload : List UInt8) : List UInt8 :=
  tcpHdrBytes sport dport seq ack 0x50 flg wnd (tcpSum src dst sport dport seq ack flg wnd payload) 0 ++ payload

theorem payloadMbuf_data {payload : List UInt8} (h : payload.length ≤ ethMaxSize) : ∃ m,
    payloadMbuf payload = some m ∧ m.data = payload ∧ m.head + payload.length = ethMaxSize := by
  obtain ⟨r, hr, hr1, hhead, -, hdata⟩ := emptyMbuf.push_put payload h
  refine ⟨_, ?_, hdata.trans (append_nil _), hhead⟩
  unfold payloadMbuf
  rw [mbufalloc_ethMaxSize, Option.bind_some, hr]
  rfl

theorem tcpLen_toNat {n : Nat} (h : n ≤ tcpMaxData) : (UInt16.ofNat n + 20).toNat = n + 20 := by
  have h : n ≤ 3946 := h
  rw [UInt16.toNat_add, UInt16.toNat_ofNat', show (20 : UInt16).toNat = 20 from rfl]
  omega

theorem tcpSendFrame_data {m : Mbuf} (localIp : UInt32) (harp : arp dip = some mac) (h : 54 ≤ m.head)
    (hlen : m.data.length ≤ tcpMaxData)
    (sport dport : UInt16) (seq ack wnd : UInt32) {flg : UInt8} (hf : tcpFlgIsset flg tcpFlgAck = true) : ∃ m',
    tcpSendFrame localIp arp m dip sport dport seq ack wnd flg (UInt16.ofNat m.data.length) = some (.transmit m') ∧
    m'.data = ipFrame mac localIp dip 6 (tcpBytes localIp dip sport dport seq ack flg wnd.toUInt16 m.data) := by
  let hdr := tcpHdrBytes sport dport seq ack 0x50 flg wnd.toUInt16 0 0
  obtain ⟨r, hr, hr1, hhead, hrlen, hdata⟩ := m.push_put hdr (by
    change 20 ≤ m.head
    omega)
  change r.2.head + 20 = m.head at hhead
  change r.2.len = m.len + 20 at hrlen
  -- the mbuf with the header whose checksum is 0
  let m1 : Mbuf := { r.2 with buf := putBytes r.2.buf r.1 hdr }
  have hn := tcpLen_toNat hlen
  have hsum : cksum16 m1.buf r.1 (UInt16.ofNat m.data.length + 20).toNat
      (pseudoSum localIp dip 6 (UInt16.ofNat m.data.length + 20)) =
        tcpSum localIp dip sport dport seq ack flg wnd.toUInt16 m.data := by
    refine cksum16_congr fun j hj => ?_
    have hj' : j < m1.len := by
      change j < r.2.len
      rw [hrlen, ← m.length_data]
      omega
    rw [hr1, m1.buf_eq hj', hdata, zero_add]
  have hput := m1.data_put 16 (be16Bytes (tcpSum localIp dip sport dport seq ack flg wnd.toUInt16 m.data)) (by
    change 18 ≤ r.2.len
    omega)
  rw [hdata] at hput
  unfold tcpSendFrame
  rw [show mbufpush m 20 = some r from hr, Option.bind_some]
  dsimp only
  rw [if_pos hf, show putBytes r.2.buf r.1 (tcpHdrBytes sport dport seq ack 0x50 flg wnd.toUInt16 0 0) =
    m1.buf from rfl, hsum, hr1]
  obtain ⟨m', hm', hd'⟩ := ipSend_data localIp 6 ({ m1 with
    buf := putBytes m1.buf (m1.head + 16)
      (be16Bytes (tcpSum localIp dip sport dport seq ack flg wnd.toUInt16 m.data)) }) harp (by
      change 34 ≤ r.2.head
      omega)
  refine ⟨m', hm', ?_⟩
  rw [hd', hput]
  rfl

/-- The bytes of a UDP datagram. -/
def udpBytes (sport dport : UInt16) (payload : List UInt8) : List UInt8 :=
  udpHdrBytes sport dport (UInt16.ofNat (payload.length + 8)) 0 ++ payload

theorem udpSend_data {m : Mbuf} (localIp : UInt32) (harp : arp dip = some mac) (h : 42 ≤ m.head)
    (sport dport : UInt16) : ∃ m', udpSend localIp arp m dip sport dport = some (.transmit m') ∧
    m'.data = ipFrame mac localIp dip 17 (udpBytes sport dport m.data) := by
  obtain ⟨r, hr, hr1, hhead, hrlen, hdata⟩ := m.push_put
    (udpHdrBytes sport dport (UInt16.ofNat (m.data.length + 8)) 0) (by
      change 8 ≤ m.head
      omega)
  change r.2.head + 8 = m.head at hhead
  change r.2.len = m.len + 8 at hrlen
  unfold udpSend
  rw [show mbufpush m 8 = some r from hr, Option.bind_some, hrlen, ← m.length_data]
  obtain ⟨m', hm', hd'⟩ := ipSend_data localIp 17 ({ r.2 with
    buf := putBytes r.2.buf r.1 (udpHdrBytes sport dport (UInt16.ofNat (m.data.length + 8)) 0) }) harp (by
      change 34 ≤ r.2.head
      omega)
  refine ⟨m', hm', ?_⟩
  rw [hd', hdata]
  rfl

end

/-! ## What is received -/

section
variable {n : Stack} {a : Nat} {m : Mbuf}

theorem mbufpull_of_le {k : Nat} (h : k ≤ m.len) :
    mbufpull m k = (some m.head, { m with len := m.len - k, head := m.head + k }) :=
  if_neg (Nat.not_lt.mpr h)

theorem mbufpull_hdr {hdr rest : List UInt8} (hm : m.data = hdr ++ rest) :
    hdr.length ≤ m.len ∧ { m with len := m.len - hdr.length, head := m.head + hdr.length }.data = rest := by
  have hle : hdr.length ≤ m.len := by
    rw [← m.length_data, hm, length_append]
    omega
  have hpull := mbufpull_data m hdr.length hle
  rw [mbufpull_of_le hle, hm, drop_left] at hpull
  exact ⟨hle, hpull⟩

theorem Mbuf.buf_of_data {hdr rest : List UInt8} (hm : m.data = hdr ++ rest) {j : Nat} (h : j < hdr.length) :
    m.buf (m.head + j) = asBuf hdr j := by
  rw [m.buf_eq (lt_of_lt_of_le h (mbufpull_hdr hm).1), hm, asBuf_append_left h]

theorem mbuftrim_data {l pad : List UInt8} (hm : m.data = l ++ pad) : (mbuftrim m pad.length).data = l := by
  have hlen : m.len = l.length + pad.length := by
    rw [← m.length_data, hm, length_append]
  unfold mbuftrim
  rw [if_neg (by omega), m.data_cut (Nat.sub_le _ _), hm, hlen, Nat.add_sub_cancel, take_left]

@[simp] theorem Stack.setMbuf_self : (n.setMbuf a m).mbufs a = m := Function.update_self ..

@[simp] theorem Stack.setMbuf_setMbuf (m' : Mbuf) : (n.setMbuf a m).setMbuf a m' = n.setMbuf a m' := by
  unfold setMbuf
  simp

/-- The fields of an IP header that the receiver reads. -/
structure IpHdrAt (buf : Nat → UInt8) (ip : Nat) (len : UInt16) (p : UInt8) (src dst : UInt32) : Prop where
  vhl : buf ip = 0x45
  len : be16 buf (ip + 2) = len
  off : be16 buf (ip + 6) = 0
  proto : buf (ip + 9) = p
  srcHi : be16 buf (ip + 12) = (src >>> 16).toUInt16
  srcLo : be16 buf (ip + 14) = src.toUInt16
  dstHi : be16 buf (ip + 16) = (dst >>> 16).toUInt16
  dstLo : be16 buf (ip + 18) = dst.toUInt16

section
variable {len : UInt16} {p : UInt8} {src dst : UInt32} {rest : List UInt8}

theorem ipHdrAt_of_data {sum : UInt16} (hm : m.data = ipHdrBytes len p sum src dst ++ rest) :
    IpHdrAt m.buf m.head len p src dst := by
  have hb : ∀ j, j < 20 → m.buf (m.head + j) = asBuf (ipHdrBytes len p sum src dst) j :=
    fun j hj => buf_of_data hm hj
  exact ⟨hb 0 (by decide), be16_of_bytes (hb 2 (by decide)) (hb 3 (by decide)),
    be16_of_bytes (hb 6 (by decide)) (hb 7 (by decide)), hb 9 (by decide),
    be16_of_bytes (hb 12 (by decide)) (hb 13 (by decide)), be16_of_bytes (hb 14 (by decide)) (hb 15 (by decide)),
    be16_of_bytes (hb 16 (by decide)) (hb 17 (by decide)), be16_of_bytes (hb 18 (by decide)) (hb 19 (by decide))⟩

theorem ipSum_verifies (hm : m.data = ipHdrBytes len p (ipSum len p src dst) src dst ++ rest) :
    cksum16 m.buf m.head 20 0 = 0 := by
  have hb : ∀ j, j < 20 → m.buf (m.head + j) = asBuf (ipHdrBytes len p (ipSum len p src dst) src dst) j :=
    fun j hj => buf_of_data hm hj
  refine cksum16_verifies (k := 5) (r := 8) (b := asBuf (ipHdrBytes len p 0 src dst)) (i := 0) (by decide) (by decide)
    (fun j hj h0 h1 => ?_) rfl rfl (be16_of_bytes (hb 10 (by decide)) (hb 11 (by decide)))
  rw [hb j hj]
  interval_cases j <;> first | rfl | contradiction

theorem ipRecvOn_pass (hm : m.data = ipHdrBytes len p (ipSum len p src dst) src dst ++ rest) :
    ipRecvOn dst (n.setMbuf a m) a = let n' := n.setMbuf a { m with len := m.len - 20, head := m.head + 20 }
      if p = 17 then udpRecvFrame n' a m.head (len - 20)
      else if p = 6 then tcpRecvFrame n' a m.head (len - 20)
      else some n' := by
  have h := ipHdrAt_of_data hm
  have hle : 20 ≤ m.len := (mbufpull_hdr hm).1
  have hdst : be32 m.buf (m.head + 16) = dst := be32_of_words h.dstHi h.dstLo
  unfold ipRecvOn
  simp only [setMbuf_self, mbufpull_of_le hle, setMbuf_setMbuf]
  rw [if_neg (not_not.mpr h.vhl), if_neg (not_not.mpr (ipSum_verifies hm)), h.off, if_neg (by decide),
    if_neg (not_not.mpr hdst), h.len, h.proto]

theorem ethRecvOn_pass {mac : Mac} (hm : m.data = ethHdrBytes mac localMac 0x0800 ++ rest) :
    ethRecvOn dst (n.setMbuf a m) a =
      ipRecvOn dst (n.setMbuf a { m with len := m.len - 14, head := m.head + 14 }) a := by
  have hb : ∀ j, j < 14 → m.buf (m.head + j) = asBuf (ethHdrBytes mac localMac 0x0800) j :=
    fun j hj => buf_of_data hm hj
  have hle : 14 ≤ m.len := (mbufpull_hdr hm).1
  have htype : be16 m.buf (m.head + 12) = 0x0800 := be16_of_bytes (hb 12 (by decide)) (hb 13 (by decide))
  unfold ethRecvOn
  simp only [setMbuf_self, mbufpull_of_le hle, setMbuf_setMbuf]
  rw [if_pos htype]

end

section
variable {ip : Nat} {len : UInt16} {src dst : UInt32} {sport dport : UInt16} {seq ack : UInt32} {flg : UInt8}
  {wnd : UInt16} {payload pad : List UInt8}

theorem pseudoSum_le (src dst : UInt32) (p : UInt8) (len : UInt16) : (pseudoSum src dst p len).toNat ≤ 2 ^ 20 := by
  have h1 := src.toUInt16.toNat_lt
  have h2 := (src >>> 16).toUInt16.toNat_lt
  have h3 := dst.toUInt16.toNat_lt
  have h4 := (dst >>> 16).toUInt16.toNat_lt
  have h5 := p.toNat_lt
  have h6 := len.toNat_lt
  simp only [pseudoSum, UInt32.toNat_add, UInt16.toNat_toUInt32, UInt8.toNat_toUInt32]
  omega

theorem tcpSum_verifies (hip : IpHdrAt m.buf ip len 6 src dst) (hlen : payload.length ≤ tcpMaxData)
    (hm : m.data = tcpBytes src dst sport dport seq ack flg wnd payload ++ pad) :
    tcpChecksum m.buf ip m.head (UInt16.ofNat payload.length + 20) = 0 := by
  have hb : ∀ j, j < 20 + payload.length → m.buf (m.head + j) =
      asBuf (tcpBytes src dst sport dport seq ack flg wnd payload) j :=
    fun j hj => buf_of_data hm (by
      change j < (tcpHdrBytes sport dport seq ack 0x50 flg wnd _ 0 ++ payload).length
      rw [length_append]
      exact hj)
  have hn := tcpLen_toNat hlen
  have hle : payload.length ≤ 3946 := hlen
  unfold tcpChecksum
  rw [hip.srcLo, hip.srcHi, hip.dstLo, hip.dstHi, hip.proto]
  change cksum16 m.buf m.head _ (pseudoSum src dst 6 (UInt16.ofNat payload.length + 20)) = 0
  rw [hn, show payload.length + 20 = 2 * 8 + (2 + (2 + payload.length)) by omega]
  refine cksum16_verifies (b := asBuf (tcpHdrBytes sport dport seq ack 0x50 flg wnd 0 0 ++ payload)) (i := 0) (by omega)
    (pseudoSum_le _ _ _ _) (fun j hj h0 h1 => ?_) rfl rfl ?_
  · rw [hb j (by omega), zero_add]
    by_cases hj20 : j < 20
    · interval_cases j <;> first | rfl | contradiction
    · -- behind the header both are the payload
      obtain ⟨k, rfl⟩ := Nat.exists_eq_add_of_le (Nat.le_of_not_lt hj20)
      exact (asBuf_append_right (tcpHdrBytes sport dport seq ack 0x50 flg wnd _ 0) payload k).trans
        (asBuf_append_right (tcpHdrBytes sport dport seq ack 0x50 flg wnd 0 0) payload k).symm
  · have hsum : be16 m.buf (m.head + 2 * 8) = tcpSum src dst sport dport seq ack flg wnd payload :=
      be16_of_bytes (hb 16 (by omega)) (hb 17 (by omega))
    rw [hsum, show 2 * 8 + (2 + (2 + payload.length)) = payload.length + 20 by omega, ← hn]
    rfl

theorem tcpHdrAt_of_data {off : UInt8} {sum urg : UInt16} {rest : List UInt8}
    (hm : m.data = tcpHdrBytes sport dport seq ack off flg wnd sum urg ++ rest) : tcpHdrAt m.buf m.head =
      { sport := sport, dport := dport, seq := seq, ack := ack, off := off, flg := flg, wnd := wnd } := by
  have hb : ∀ j, j < 20 → m.buf (m.head + j) = asBuf (tcpHdrBytes sport dport seq ack off flg wnd sum urg) j :=
    fun j hj => buf_of_data hm hj
  have hsport : be16 m.buf m.head = sport := be16_of_bytes (hb 0 (by decide)) (hb 1 (by decide))
  have hdport : be16 m.buf (m.head + 2) = dport := be16_of_bytes (hb 2 (by decide)) (hb 3 (by decide))
  have hseq : be32 m.buf (m.head + 4) = seq := be32_of_words (be16_of_bytes (hb 4 (by decide)) (hb 5 (by decide)))
    (be16_of_bytes (hb 6 (by decide)) (hb 7 (by decide)))
  have hack : be32 m.buf (m.head + 8) = ack := be32_of_words (be16_of_bytes (hb 8 (by decide)) (hb 9 (by decide)))
    (be16_of_bytes (hb 10 (by decide)) (hb 11 (by decide)))
  have hwnd : be16 m.buf (m.head + 14) = wnd := be16_of_bytes (hb 14 (by decide)) (hb 15 (by decide))
  have hoff : m.buf (m.head + 12) = off := hb 12 (by decide)
  have hflg : m.buf (m.head + 13) = flg := hb 13 (by decide)
  rw [tcpHdrAt, hsport, hdport, hseq, hack, hwnd, hoff, hflg]

theorem tcpRecvFrame_pass (hip : IpHdrAt m.buf ip len 6 src dst) (hlen : payload.length ≤ tcpMaxData)
    (hm : m.data = tcpBytes src dst sport dport seq ack flg wnd payload ++ pad) : ∃ m',
    tcpRecvFrame (n.setMbuf a m) a ip (UInt16.ofNat payload.length + 20) =
      tcpRecvAt (n.setMbuf a m') a (UInt16.ofNat payload.length + 20) src ∧
    m'.tcphdr = { sport := sport, dport := dport, seq := seq, ack := ack, off := 0x50, flg := flg, wnd := wnd } ∧
    m'.data = payload ++ pad := by
  have hm' : m.data = tcpHdrBytes sport dport seq ack 0x50 flg wnd _ 0 ++ (payload ++ pad) :=
    hm.trans (append_assoc ..)
  have hle : 20 ≤ m.len := (mbufpull_hdr hm').1
  have hsrc : be32 m.buf (ip + 12) = src := be32_of_words hip.srcHi hip.srcLo
  refine ⟨{ m with len := m.len - 20, head := m.head + 20, tcphdr := tcpHdrAt m.buf m.head }, ?_,
    tcpHdrAt_of_data hm', (mbufpull_hdr hm').2⟩
  unfold tcpRecvFrame
  simp only [setMbuf_self, mbufpull_of_le hle, setMbuf_setMbuf]
  rw [if_neg (not_not.mpr (tcpSum_verifies hip hlen hm)), hsrc]

theorem udpRecvFrame_pass (hip : IpHdrAt m.buf ip len 17 src dst) (hlen : payload.length ≤ udpMaxData)
    (hm : m.data = udpBytes sport dport payload ++ pad) : ∃ m',
    udpRecvFrame (n.setMbuf a m) a ip (UInt16.ofNat (payload.length + 8)) = udpRecvAt (n.setMbuf a m') a src
        { sport := sport, dport := dport, ulen := UInt16.ofNat (payload.length + 8) } ∧
    m'.data = payload := by
  have hm' : m.data = udpHdrBytes sport dport (UInt16.ofNat (payload.length + 8)) 0 ++ (payload ++ pad) :=
    hm.trans (append_assoc ..)
  have hb : ∀ j, j < 8 → m.buf (m.head + j) = asBuf (udpHdrBytes sport dport (UInt16.ofNat (payload.length + 8)) 0) j :=
    fun j hj => buf_of_data hm' hj
  have hle : 8 ≤ m.len := (mbufpull_hdr hm').1
  have hsrc : be32 m.buf (ip + 12) = src := be32_of_words hip.srcHi hip.srcLo
  have hhdr : udpHdrAt m.buf m.head =
      { sport := sport, dport := dport, ulen := UInt16.ofNat (payload.length + 8) } := by
    rw [udpHdrAt, show be16 m.buf m.head = sport from be16_of_bytes (hb 0 (by decide)) (hb 1 (by decide)),
      show be16 m.buf (m.head + 2) = dport from be16_of_bytes (hb 2 (by decide)) (hb 3 (by decide)),
      show be16 m.buf (m.head + 4) = UInt16.ofNat (payload.length + 8) from
        be16_of_bytes (hb 4 (by decide)) (hb 5 (by decide))]
  have hlen : payload.length ≤ 3958 := hlen
  have hpay : (UInt16.ofNat (payload.length + 8) - 8).toNat = payload.length := by
    rw [UInt16.toNat_sub, UInt16.toNat_ofNat', show (8 : UInt16).toNat = 8 from rfl]
    omega
  have hrest : m.len - 8 = payload.length + pad.length := by
    rw [← m.length_data, hm', length_append, length_append]
    exact Nat.add_sub_cancel_left 8 _
  have hpull : { m with len := m.len - 8, head := m.head + 8 }.data = payload ++ pad := (mbufpull_hdr hm').2
  refine ⟨mbuftrim { m with len := m.len - 8, head := m.head + 8 } pad.length, ?_, ?_⟩
  · unfold udpRecvFrame
    simp only [setMbuf_self, mbufpull_of_le hle, setMbuf_setMbuf]
    rw [hhdr, if_neg (not_not.mpr rfl), hpay, if_neg (by omega), hsrc, hrest, Nat.add_sub_cancel_left]
  · exact mbuftrim_data hpull

end

end

/-! ## There and back -/

section
variable {src dst : UInt32} {mac : Mac} {rx : Mbuf} {payload pad : List UInt8} {sport dport : UInt16}

/-- A frame with any padding passes the Ethernet and the IP layer. -/
theorem ipFrame_recv {p : UInt8} {data : List UInt8} (hrx : rx.data = ipFrame mac src dst p data ++ pad) (n : Stack)
    (a : Nat) : ∃ rx' ip len, IpHdrAt rx'.buf ip len p src dst ∧ rx'.data = data ++ pad ∧
      len = UInt16.ofNat (data.length + 20) ∧
      ethRecvOn dst (n.setMbuf a rx) a = if p = 17 then udpRecvFrame (n.setMbuf a rx') a ip (len - 20)
        else if p = 6 then tcpRecvFrame (n.setMbuf a rx') a ip (len - 20)
        else some (n.setMbuf a rx') := by
  unfold ipFrame at hrx
  rw [append_assoc, append_assoc] at hrx
  let rx1 : Mbuf := { rx with len := rx.len - 14, head := rx.head + 14 }
  let rx2 : Mbuf := { rx1 with len := rx1.len - 20, head := rx1.head + 20 }
  have h1 : rx1.data = _ := (mbufpull_hdr hrx).2
  have h2 : rx2.data = data ++ pad := (mbufpull_hdr h1).2
  have hip : IpHdrAt rx2.buf rx1.head _ p src dst := ipHdrAt_of_data h1
  exact ⟨rx2, rx1.head, _, hip, h2, rfl, (ethRecvOn_pass hrx).trans (ipRecvOn_pass h1)⟩

theorem text_data {len : UInt16} (hlen : payload.length ≤ tcpMaxData) (hrx : rx.data = payload ++ pad)
    (hoff : rx.tcphdr.off = 0x50) (hl : len = UInt16.ofNat payload.length + 20) :
    { rx with len := (tcpDataLen rx.tcphdr len).toNat }.data = payload := by
  have hlen : payload.length ≤ 3946 := hlen
  have hd : (tcpDataLen rx.tcphdr len).toNat = payload.length := by
    unfold tcpDataLen
    rw [hoff, hl, show (((0x50 : UInt8) >>> 4) <<< 2).toUInt16 = 20 from rfl, UInt16.add_sub_cancel,
      UInt16.toNat_ofNat']
    omega
  have hle : payload.length ≤ rx.len := by
    rw [← rx.length_data, hrx, length_append]
    omega
  rw [hd, rx.data_cut hle, hrx, take_left]

theorem tcp_recv_frame {seq ack : UInt32} {flg : UInt8} {wnd : UInt16} (hlen : payload.length ≤ tcpMaxData)
    (hrx : rx.data = ipFrame mac src dst 6 (tcpBytes src dst sport dport seq ack flg wnd payload) ++ pad) (n : Stack)
    (a : Nat) : ∃ rx' len, ethRecvOn dst (n.setMbuf a rx) a = tcpRecvAt (n.setMbuf a rx') a len src ∧
      rx'.tcphdr = { sport := sport, dport := dport, seq := seq, ack := ack, off := 0x50, flg := flg, wnd := wnd } ∧
      { rx' with len := (tcpDataLen rx'.tcphdr len).toNat }.data = payload := by
  obtain ⟨rx1, ip, len, hip, hdata, hl, heth⟩ := ipFrame_recv hrx n a
  obtain ⟨rx', hrecv, hhdr, htext⟩ := tcpRecvFrame_pass (n := n) (a := a) hip hlen hdata
  have hl' : len - 20 = UInt16.ofNat payload.length + 20 := by
    rw [hl, show (tcpBytes src dst sport dport seq ack flg wnd payload).length = 20 + payload.length from
      length_append]
    have h : payload.length ≤ 3946 := hlen
    refine UInt16.toNat_inj.mp ?_
    rw [tcpLen_toNat hlen, UInt16.toNat_sub, UInt16.toNat_ofNat', show (20 : UInt16).toNat = 20 from rfl]
    omega
  rw [hl', hrecv] at heth
  exact ⟨rx', _, heth, hhdr, text_data hlen htext (by rw [hhdr]) rfl⟩

theorem udp_recv_frame (hlen : payload.length ≤ udpMaxData)
    (hrx : rx.data = ipFrame mac src dst 17 (udpBytes sport dport payload) ++ pad) (n : Stack) (a : Nat) :
    ∃ rx' ulen, ethRecvOn dst (n.setMbuf a rx) a =
        udpRecvAt (n.setMbuf a rx') a src { sport := sport, dport := dport, ulen := ulen } ∧ rx'.data = payload := by
  obtain ⟨rx1, ip, len, hip, hdata, hl, heth⟩ := ipFrame_recv hrx n a
  obtain ⟨rx', hrecv, hpay⟩ := udpRecvFrame_pass (n := n) (a := a) hip hlen hdata
  have hl' : len - 20 = UInt16.ofNat (payload.length + 8) := by
    rw [hl, show (udpBytes sport dport payload).length = 8 + payload.length from length_append]
    refine UInt16.toNat_inj.mp ?_
    rw [UInt16.toNat_sub, UInt16.toNat_ofNat', UInt16.toNat_ofNat', show (20 : UInt16).toNat = 20 from rfl]
    omega
  rw [hl', hrecv] at heth
  exact ⟨rx', _, heth, hpay⟩

/-- `udp_recv` queues the mbuf as it is on the block it finds. -/
theorem udpRecvAt_queues {n : Stack} {a p : Nat} (hdr : UdpHdr)
    (hp : getSockCb n .udp hdr.dport src hdr.sport = some p) (h0 : p ≠ 0) : ∃ n', udpRecvAt n a src hdr = some n' ∧
      (n'.scbs p).rxq = (mbufqPushtail n.mbufs (n.scbs p).rxq a).2 ∧ (n'.mbufs a).data = (n.mbufs a).data := by
  unfold udpRecvAt
  rw [hp]
  refine ⟨_, rfl, ?_⟩
  dsimp only
  rw [if_neg h0]
  constructor
  · change (Function.update n.scbs p _ p).rxq = _
    rw [Function.update_self]
    split_ifs <;> rfl
  · exact mbufqPushtail_data _ _ _ _

end

/-- **Frame round trip.**  A segment of at most TCP_MAX_DATA bytes that `socksend` and `tcp_send_core` send from
`src` to `dst` leaves in a frame; on the host `dst`, `eth_recv` of an mbuf with that frame and any padding comes to the
lookup and the state processing of `tcp_recv` with the address `src`, the header that was sent, and the payload as its
text.  A datagram of at most UDP_MAX_DATA bytes comes to the lookup of `udp_recv` with its bytes and no others, and is
queued on the block that is found. -/
theorem frameRoundTrip (src dst : UInt32) (arp : UInt32 → Option Mac) {mac : Mac} (hmac : arp dst = some mac)
    (payload : List UInt8) (sport dport : UInt16) :
    (payload.length ≤ tcpMaxData → ∀ (seq ack wnd : UInt32) (flg : UInt8), tcpFlgIsset flg tcpFlgAck = true →
      ∃ m m', payloadMbuf payload = some m ∧
        tcpSendFrame src arp m dst sport dport seq ack wnd flg (UInt16.ofNat payload.length) = some (.transmit m') ∧
        ∀ (n : Stack) (a : Nat) (rx : Mbuf) (pad : List UInt8), rx.data = m'.data ++ pad → ∃ rx' len,
          ethRecvOn dst (n.setMbuf a rx) a = tcpRecvAt (n.setMbuf a rx') a len src ∧
          rx'.tcphdr = { sport := sport, dport := dport, seq := seq, ack := ack, off := 0x50, flg := flg,
                         wnd := wnd.toUInt16 } ∧
          { rx' with len := (tcpDataLen rx'.tcphdr len).toNat }.data = payload) ∧
    (payload.length ≤ udpMaxData → ∃ m m', payloadMbuf payload = some m ∧
        udpSend src arp m dst sport dport = some (.transmit m') ∧
        ∀ (n : Stack) (a : Nat) (rx : Mbuf) (pad : List UInt8), rx.data = m'.data ++ pad → ∃ rx' ulen,
          ethRecvOn dst (n.setMbuf a rx) a =
            udpRecvAt (n.setMbuf a rx') a src { sport := sport, dport := dport, ulen := ulen } ∧
          rx'.data = payload ∧
          ∀ p, getSockCb (n.setMbuf a rx') .udp dport src sport = some p → p ≠ 0 → ∃ n',
            ethRecvOn dst (n.setMbuf a rx) a = some n' ∧
            (n'.scbs p).rxq = (mbufqPushtail (n.setMbuf a rx').mbufs (n.scbs p).rxq a).2 ∧
            (n'.mbufs a).data = payload) := by
  constructor
  · intro hlen seq ack wnd flg hf
    have hlen' : payload.length ≤ 3946 := hlen
    obtain ⟨m, hm, hdata, hhead⟩ := payloadMbuf_data (le_trans hlen (by decide))
    change m.head + payload.length = 4000 at hhead
    obtain ⟨m', hm', hframe⟩ := tcpSendFrame_data (m := m) src hmac (by omega)
      (by rw [hdata]; exact hlen) sport dport seq ack
      wnd hf
    rw [hdata] at hm' hframe
    refine ⟨m, m', hm, hm', fun n a rx pad hrx => ?_⟩
    rw [hframe] at hrx
    exact tcp_recv_frame hlen hrx n a
  · intro hlen
    have hlen' : payload.length ≤ 3958 := hlen
    obtain ⟨m, hm, hdata, hhead⟩ := payloadMbuf_data (le_trans hlen (by decide))
    change m.head + payload.length = 4000 at hhead
    obtain ⟨m', hm', hframe⟩ := udpSend_data (m := m) src hmac (by omega) sport dport
    rw [hdata] at hframe
    refine ⟨m, m', hm, hm', fun n a rx pad hrx => ?_⟩
    rw [hframe] at hrx
    obtain ⟨rx', ulen, heth, hpay⟩ := udp_recv_frame hlen hrx n a
    refine ⟨rx', ulen, heth, hpay, fun p hp h0 => ?_⟩
    rw [heth]
    obtain ⟨n', hn', hq, hd⟩ := udpRecvAt_queues { sport := sport, dport := dport, ulen := ulen } hp h0
    rw [setMbuf_self, hpay] at hd
    exact ⟨n', hn', hq, hd⟩

/-- Three bytes, once as a segment and once as a datagram, in a frame with one byte of padding. -/
theorem frameRoundTrip_three : (∃ m m', payloadMbuf [1, 2, 3] = some m ∧
      tcpSendFrame 9 (fun _ => some broadcastMac) m 8 7 80 5 6 100 tcpFlgAck 3 = some (.transmit m') ∧
      ∀ rx : Mbuf, rx.data = m'.data ++ [0] → ∃ rx' len,
        ethRecvOn 8 (socketInit.setMbuf 1 rx) 1 = tcpRecvAt (socketInit.setMbuf 1 rx') 1 len 9 ∧
        { rx' with len := (tcpDataLen rx'.tcphdr len).toNat }.data = [1, 2, 3]) ∧
    (∃ m m', payloadMbuf [1, 2, 3] = some m ∧ udpSend 9 (fun _ => some broadcastMac) m 8 7 80 = some (.transmit m') ∧
      ∀ rx : Mbuf, rx.data = m'.data ++ [0] → ∃ rx' ulen,
        ethRecvOn 8 (socketInit.setMbuf 1 rx) 1 = udpRecvAt (socketInit.setMbuf 1 rx') 1 9 ⟨7, 80, ulen⟩ ∧
        rx'.data = [1, 2, 3]) := by
  obtain ⟨htcp, hudp⟩ := frameRoundTrip 9 8 (fun _ => some broadcastMac) rfl [1, 2, 3] 7 80
  constructor
  · obtain ⟨m, m', hm, hm', h⟩ := htcp (by decide) 5 6 100 tcpFlgAck (by decide)
    refine ⟨m, m', hm, hm', fun rx hrx => ?_⟩
    obtain ⟨rx', len, heth, -, htext⟩ := h socketInit 1 rx [0] hrx
    exact ⟨rx', len, heth, htext⟩
  · obtain ⟨m, m', hm, hm', h⟩ := hudp (by decide)
    refine ⟨m, m', hm, hm', fun rx hrx => ?_⟩
    obtain ⟨rx', ulen, heth, hpay, -⟩ := h socketInit 1 rx [0] hrx
    exact ⟨rx', ulen, heth, hpay⟩

end InternetOs.Net
