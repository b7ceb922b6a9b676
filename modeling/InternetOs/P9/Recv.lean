import Mathlib.Data.List.TakeWhile
import InternetOs.P9.Parse

/-!
# Receiving requests (`user/9psv/req.c`)

`p9_recvreq` fills the receive buffer only when it is empty: it reads until the first message is
complete, and takes what was read behind it for whole messages.  The bytes of TCP come in
pieces that are cut anywhere, so a piece that ends inside a later message, or one
with less than the four bytes of a size, has the server parse what it has not received.

    the messages are received one after the other ↔ the pieces are aligned   (recvFrames)
-/

namespace InternetOs.P9

open List

/-! ## The receiver -/

/-- How a call does not return a request: it parses bytes that have not been received, it waits for more, the parser
faults or returns null; `tooLong` is a `read` that stores more than it is asked for, which there is not. -/
inductive RecvFault
  | unreceived | blocked | tooLong | parser | null
  deriving DecidableEq

/-- `struct p9_conn`: `buf` are the bytes of `_rbuf` that have been received since it was empty, and `rbuf` is
the place of the next message. -/
structure Conn where
  rsize : Nat
  buf : List UInt8
  rbuf : Nat

/-- The connection before the first call. -/
def Conn.init : Conn := { rsize := 0, buf := [], rbuf := 0 }

/-- `read` of at most `n` bytes, with the results that are to come. -/
def sockRead (n : Nat) : List (List UInt8) → Except RecvFault (List UInt8 × List (List UInt8))
  | [] => .error .blocked
  | r :: rs => if n < r.length then .error .tooLong else .ok (r, rs)

/-- The loop that reads until there are `size` bytes. -/
def fill (size : Nat) : List UInt8 → List (List UInt8) → Except RecvFault (List UInt8 × List (List UInt8))
  | buf, [] => if buf.length < size then .error .blocked else .ok (buf, [])
  | buf, r :: rs =>
    if buf.length < size then
      if maxmsglen - buf.length < r.length then .error .tooLong else fill size (buf ++ r) rs
    else .ok (buf, r :: rs)

/-- The size that the message says. -/
def sizeField (buf : List UInt8) : Except RecvFault Nat := match gbit32 0 buf with
  | .ok size _ => .ok size.toNat
  | .error _ _ => .error .unreceived

/-- The part of `p9_recvreq` that is done for an empty buffer. -/
def refill (rs : List (List UInt8)) : Except RecvFault (Conn × List (List UInt8)) := do
  let (buf, rs) ← sockRead maxmsglen rs
  let size ← sizeField buf
  let (buf, rs) ← fill size buf rs
  .ok ({ rsize := buf.length, buf := buf, rbuf := 0 }, rs)

/-- The part that takes a message out of the buffer.  The parser is given `size` bytes, which must be there. -/
def takeReq (c : Conn) : Except RecvFault (Fcall × Conn) := do
  let size ← sizeField (c.buf.drop c.rbuf)
  if (c.buf.drop c.rbuf).length < size then .error .unreceived
  else match parsefcall size (c.buf.drop c.rbuf) with
    | .error _ _ => .error .parser
    | .ok none _ => .error .null
    | .ok (some f) buf =>
      .ok (f, { rsize := c.rsize - size, buf := c.buf.take c.rbuf ++ buf, rbuf := c.rbuf + size })

/-- `p9_recvreq`. -/
def p9Recvreq (c : Conn) (rs : List (List UInt8)) : Except RecvFault (Fcall × Conn × List (List UInt8)) := do
  let (c, rs) ← if c.rsize = 0 then refill rs else .ok (c, rs)
  let (f, c) ← takeReq c
  .ok (f, c, rs)

/-- The requests of `n` calls, with the connection after each. -/
def recvAll : Nat → Conn → List (List UInt8) → Except RecvFault (List (Fcall × Conn))
  | 0, _, _ => .ok []
  | n + 1, c, rs => do
    let (f, c, rs) ← p9Recvreq c rs
    let out ← recvAll n c rs
    .ok ((f, c) :: out)

/-! ## Messages and pieces -/

/-- A message with its tag. -/
abbrev Tagged := UInt16 × TMsg

def Tagged.bytes (x : Tagged) : List UInt8 := x.2.encode x.1

/-- The request is the message, its strings are in the buffer, and the buffer has not been left. -/
structure Gave (x : Fcall × Conn) (m : Tagged) : Prop where
  request : x.1.Says (UInt32.ofNat m.bytes.length) m.1 m.2 (x.2.buf.drop (x.2.rbuf - m.bytes.length))
  room : x.2.buf.length ≤ maxmsglen

/-- Successive calls return the messages. -/
def Receives (c : Conn) (rs : List (List UInt8)) (ms : List Tagged) : Prop :=
  ∃ out, recvAll ms.length c rs = .ok out ∧ Forall₂ Gave out ms

/-- **The pieces are aligned with the messages.**  They come in groups, each of them whole messages: the first
piece has the size of the first message, and the last one is the one that completes the first message. -/
inductive Aligned : List Tagged → List (List UInt8) → Prop
  | nil : Aligned [] []
  | refill {m : Tagged} {batch ms : List Tagged} {r : List UInt8} {g rs : List (List UInt8)} (size : 4 ≤ r.length)
      (whole : r ++ g.flatten = m.bytes ++ (batch.map Tagged.bytes).flatten)
      (last : ∀ g' b, g = g' ++ [b] → (r ++ g'.flatten).length < m.bytes.length) (rest : Aligned ms rs) :
      Aligned (m :: (batch ++ ms)) (r :: (g ++ rs))

/-! ## The parser and what follows the message -/

/-- The program keeps to its bytes: there are as many of them after it, and what follows them makes no difference. -/
def Framed {α : Type} (x : P9M α) : Prop :=
  ∀ buf rest a buf', x buf = .ok a buf' → buf'.length = buf.length ∧ x (buf ++ rest) = .ok a (buf' ++ rest)

section
variable {α β : Type}

theorem Framed.pure (a : α) : Framed (Pure.pure a : P9M α) := by
  intro buf rest a' buf' h
  cases h
  exact ⟨rfl, rfl⟩

theorem Framed.throw (e : Fault) : Framed (throw e : P9M α) := fun _ _ _ _ h => nomatch h

theorem Framed.bind {x : P9M α} {f : α → P9M β} (hx : Framed x) (hf : ∀ a, Framed (f a)) : Framed (x >>= f) := by
  intro buf rest b buf' h
  cases hr : x buf with
  | error e s =>
    rw [bind_of_error hr] at h
    cases h
  | ok a s =>
    rw [bind_of_ok hr] at h
    obtain ⟨hlen, hrun⟩ := hx _ rest _ _ hr
    obtain ⟨hlen', hrun'⟩ := hf a _ rest _ _ h
    rw [bind_of_ok hrun]
    exact ⟨hlen'.trans hlen, hrun'⟩

theorem Framed.ite {p : Prop} [Decidable p] {x y : P9M α} (hx : Framed x) (hy : Framed y) :
    Framed (if p then x else y) := by
  split
  · exact hx
  · exact hy

theorem rd_framed (p : Nat) : Framed (rd p) := by
  intro buf rest b buf' h
  rcases rd_faults_or buf p with ⟨b', t, hd, hr⟩ | ⟨-, e, s, he⟩
  · rw [hr] at h
    cases h
    have hp : p ≤ buf.length := by
      by_contra hlt
      rw [drop_eq_nil_of_le (by omega)] at hd
      cases hd
    have happ : (buf ++ rest).drop p = b :: (t ++ rest) := by
      rw [drop_append_of_le_length hp, hd]
      rfl
    exact ⟨rfl, rd_at happ⟩
  · rw [he] at h
    cases h

theorem gbit16_framed (p : Nat) : Framed (gbit16 p) :=
  (rd_framed _).bind fun _ => (rd_framed _).bind fun _ => Framed.pure _

theorem gbit32_framed (p : Nat) : Framed (gbit32 p) :=
  (rd_framed _).bind fun _ => (rd_framed _).bind fun _ => (rd_framed _).bind fun _ => (rd_framed _).bind fun _ =>
    Framed.pure _

theorem gbit64_framed (p : Nat) : Framed (gbit64 p) :=
  (gbit32_framed _).bind fun _ => (gbit32_framed _).bind fun _ => Framed.pure _

theorem memmove_framed (dst src n : Nat) : Framed (memmove dst src n) := by
  intro buf rest a buf' h
  unfold memmove at h ⊢
  rw [bind_of_ok (rfl : (get : P9M _) _ = .ok _ _)] at h ⊢
  by_cases hin : dst + n ≤ buf.length ∧ src + n ≤ buf.length
  · rw [if_pos hin] at h
    cases h
    refine ⟨?_, ?_⟩
    · simp only [length_append, length_take, length_drop]
      omega
    rw [if_pos (by rw [length_append]; omega), take_append_of_le_length (by omega),
      drop_append_of_le_length (by omega), drop_append_of_le_length (by omega),
      take_append_of_le_length (by rw [length_drop]; omega), ← append_assoc]
    rfl
  · rw [if_neg hin] at h
    cases h

theorem wr_framed (p : Nat) (v : UInt8) : Framed (wr p v) := by
  intro buf rest a buf' h
  unfold wr at h ⊢
  rw [bind_of_ok (rfl : (get : P9M _) _ = .ok _ _)] at h ⊢
  by_cases hin : p < buf.length
  · rw [if_pos hin] at h
    cases h
    refine ⟨length_set, ?_⟩
    rw [if_pos (by rw [length_append]; omega), set_append_left _ _ hin]
    rfl
  · rw [if_neg hin] at h
    cases h

theorem p9Gstring_framed (p ep : Nat) : Framed (p9Gstring p ep) :=
  Framed.ite (Framed.pure _) ((gbit16_framed _).bind fun _ => Framed.ite (Framed.pure _)
    ((memmove_framed _ _ _).bind fun _ => (wr_framed _ _).bind fun _ => Framed.pure _))

theorem rdBytes_framed (n p : Nat) : Framed (rdBytes n p) := by
  induction n generalizing p with
  | zero => exact Framed.pure _
  | succ n ih => exact (rd_framed _).bind fun _ => (ih _).bind fun _ => Framed.pure _

theorem parseNames_framed (ep n : Nat) (wname : List Nat) (p : Nat) : Framed (parseNames ep n wname p) := by
  induction n generalizing wname p with
  | zero => exact Framed.pure _
  | succ n ih =>
    refine (p9Gstring_framed _ _).bind fun r => ?_
    cases r with
    | none => exact Framed.pure _
    | some r => exact Framed.ite (Framed.throw _) (ih _ _)

theorem parsefunc_framed {type : Nat} {parse : Parser} (h : parsefunc type = some parse) (f : Fcall) (p len : Nat) :
    Framed (parse f p len) := by
  unfold parsefunc at h
  split at h
  all_goals cases h
  · refine Framed.ite (Framed.pure _) ((gbit32_framed _).bind fun _ => (p9Gstring_framed _ _).bind fun r => ?_)
    cases r <;> exact Framed.pure _
  · exact Framed.pure _
  · refine (gbit32_framed _).bind fun _ => (gbit32_framed _).bind fun _ => (p9Gstring_framed _ _).bind fun r => ?_
    cases r with
    | none => exact Framed.pure _
    | some r =>
      refine (p9Gstring_framed _ _).bind fun r' => ?_
      cases r' <;> exact Framed.pure _
  · exact Framed.pure _
  · exact (gbit16_framed _).bind fun _ => Framed.pure _
  · refine (gbit32_framed _).bind fun _ => (gbit32_framed _).bind fun _ => (gbit16_framed _).bind fun _ =>
      (parseNames_framed _ _ _ _).bind fun r => ?_
    cases r <;> exact Framed.pure _
  · exact (gbit32_framed _).bind fun _ => (rd_framed _).bind fun _ => Framed.pure _
  · refine (gbit32_framed _).bind fun _ => (p9Gstring_framed _ _).bind fun r => ?_
    cases r with
    | none => exact Framed.throw _
    | some r => exact (gbit32_framed _).bind fun _ => (rd_framed _).bind fun _ => Framed.pure _
  · exact (gbit32_framed _).bind fun _ => (gbit64_framed _).bind fun _ => (gbit32_framed _).bind fun _ => Framed.pure _
  · exact (gbit32_framed _).bind fun _ => (gbit64_framed _).bind fun _ => (gbit32_framed _).bind fun _ =>
      (rdBytes_framed _ _).bind fun _ => Framed.pure _
  · exact (gbit32_framed _).bind fun _ => Framed.pure _
  · exact (gbit32_framed _).bind fun _ => Framed.pure _
  · exact (gbit32_framed _).bind fun _ => Framed.pure _
  · exact Framed.pure _

theorem parsefcall_framed (size : Nat) : Framed (parsefcall size) := by
  refine Framed.ite (Framed.pure _) ((gbit32_framed _).bind fun _ => (rd_framed _).bind fun type =>
    (gbit16_framed _).bind fun _ => ?_)
  cases hp : parsefunc type.toNat with
  | none => exact Framed.throw _
  | some parse => exact parsefunc_framed hp _ _ _

end

variable {buf rest : List UInt8} {size : Nat} {g : List (List UInt8)}

theorem StrAt.append {q : Nat} {s : List UInt8} (h : StrAt buf q s) (rest : List UInt8) :
    StrAt (buf ++ rest) q s := by
  have hlen := congrArg length h
  rw [length_take, length_drop, length_append, length_singleton] at hlen
  exact h.congr le_rfl (take_append_of_le_length (by omega))

theorem cstr_append {p : Nat} (h : InBuf buf p) (rest : List UInt8) : cstr (buf ++ rest) p = cstr buf p := by
  obtain ⟨s, hs⟩ := h
  have hmem : (0 : UInt8) ∈ buf.drop p := by
    have h0 : (0 : UInt8) ∈ (buf.drop p).take (s.length + 1) := by
      rw [show (buf.drop p).take (s.length + 1) = s ++ [0] from hs]
      simp
    exact mem_of_mem_take h0
  have hp : p ≤ buf.length := by
    by_contra hlt
    rw [drop_eq_nil_of_le (by omega)] at hmem
    cases hmem
  rw [cstr, cstr, drop_append_of_le_length hp, takeWhile_append, if_neg]
  intro hlen
  have hpre := takeWhile_prefix (l := buf.drop p) (· ≠ 0)
  rw [← hpre.eq_of_length hlen] at hmem
  have hne := mem_takeWhile_imp hmem
  simp at hne

theorem Fcall.message_append {f : Fcall} (h : f.body.Inside buf) (rest : List UInt8) :
    f.message (buf ++ rest) = f.message buf := by
  unfold message
  split
  all_goals simp_all only [Body.Inside]
  · rw [cstr_append h]
  · rw [cstr_append h.1, cstr_append h.2]
  · rw [map_congr_left fun p hp => cstr_append (h.2.2 p hp) rest]
  · rw [cstr_append h]

/-- What follows the message does not change the strings of a request. -/
theorem Body.Inside.append {b : Body} (h : b.Inside buf) (rest : List UInt8) : b.Inside (buf ++ rest) := by
  have key : ∀ p, InBuf buf p → InBuf (buf ++ rest) p := by
    rintro p ⟨s, hs⟩
    exact ⟨s, hs.append rest⟩
  cases b with
  | version _ p => exact key _ h
  | attach _ p p' => exact ⟨key _ h.1, key _ h.2⟩
  | walk _ _ ps => exact ⟨h.1, h.2.1, fun p hp => key _ (h.2.2 p hp)⟩
  | create p _ _ => exact key _ h
  | write _ _ _ => exact h
  | _ => trivial

theorem Fcall.Says.append {f : Fcall} {size : UInt32} {tag : UInt16} {m : TMsg}
    (h : f.Says size tag m buf) (rest : List UInt8) : f.Says size tag m (buf ++ rest) :=
  ⟨h.size, h.type, h.tag, h.fid, by rw [message_append h.inside, h.message], h.inside.append rest⟩

/-! ## One call -/

/-- What is in the buffer and has not been taken out. -/
def Conn.left (c : Conn) : List UInt8 := c.buf.drop c.rbuf

/-- The counters say what is left. -/
structure Conn.Ok (c : Conn) : Prop where
  rsize : c.rsize = c.left.length
  rbuf : c.rbuf ≤ c.buf.length
  room : c.buf.length ≤ maxmsglen

theorem Tagged.length_bytes {m : Tagged} (h : m.2.Handled m.1) : 7 ≤ m.bytes.length ∧ m.bytes.length < UInt32.size := by
  refine ⟨?_, lt_of_le_of_lt h.fits (by decide)⟩
  simp [bytes, TMsg.encode]
  omega

theorem sizeField_bytes {m : Tagged} (h : m.2.Handled m.1) {t : List UInt8} (h4 : 4 ≤ buf.length)
    (hpre : buf ++ t = m.bytes ++ rest) : sizeField buf = .ok m.bytes.length := by
  have hlen := m.length_bytes h
  have hbytes : m.bytes.length = 7 + m.2.payload.length := by
    simp [Tagged.bytes, TMsg.encode]
    omega
  have htake : buf.take 4 = leBytes 4 m.bytes.length := by
    have := congrArg (take 4) hpre
    rw [take_append_of_le_length h4] at this
    rw [this, Tagged.bytes, TMsg.encode, ← hbytes]
    rfl
  have hd : buf.drop 0 = leBytes 4 (UInt32.ofNat m.bytes.length).toNat ++ buf.drop 4 := by
    rw [UInt32.toNat_ofNat_of_lt' hlen.2, ← htake, take_append_drop]
    rfl
  rw [sizeField, gbit32_at hd]
  exact congrArg Except.ok (UInt32.toNat_ofNat_of_lt' hlen.2)

theorem sizeField_short (h : buf.length < 4) : sizeField buf = .error .unreceived := by
  obtain ⟨e, s, he⟩ := gbit32_short (show (buf.drop 0).length < 4 from h)
  rw [sizeField, he]

theorem takeReq_whole {c : Conn} {m : Tagged} (hc : c.Ok) (h : m.2.Handled m.1)
    (hleft : c.left = m.bytes ++ rest) : ∃ f c', takeReq c = .ok (f, c') ∧ Gave (f, c') m ∧ c'.Ok ∧ c'.left = rest := by
  have hlen := m.length_bytes h
  have hleft' : c.buf.drop c.rbuf = m.bytes ++ rest := hleft
  have hsize : sizeField (c.buf.drop c.rbuf) = .ok m.bytes.length :=
    sizeField_bytes (t := []) h (by rw [hleft', length_append]; omega) (by rw [hleft', append_nil])
  obtain ⟨f, buf, hp, hf⟩ := exists_request h
  obtain ⟨hblen, hparse⟩ := parsefcall_framed _ _ rest _ _ hp
  change buf.length = m.bytes.length at hblen
  change parsefcall m.bytes.length (m.bytes ++ rest) = _ at hparse
  rw [← hleft'] at hparse
  have hpre : (c.buf.take c.rbuf).length = c.rbuf := length_take_of_le hc.rbuf
  have htotal : c.buf.length = c.rbuf + (m.bytes.length + rest.length) := by
    rw [← length_append, ← hleft', length_drop]
    have := hc.rbuf
    omega
  have hdrop : (c.buf.take c.rbuf ++ (buf ++ rest)).drop (c.rbuf + m.bytes.length) = rest := by
    rw [← append_assoc, drop_left' (by rw [length_append, hpre, hblen])]
  refine ⟨f, ⟨c.rsize - m.bytes.length, c.buf.take c.rbuf ++ (buf ++ rest), c.rbuf + m.bytes.length⟩,
    ?_, ⟨?_, ?_⟩, ⟨?_, ?_, ?_⟩, hdrop⟩
  · rw [takeReq, hsize]
    change (if _ then _ else _ : Except RecvFault (Fcall × Conn)) = _
    rw [if_neg (by rw [hleft', length_append]; omega), hparse]
  · change f.Says _ _ _ ((c.buf.take c.rbuf ++ (buf ++ rest)).drop (c.rbuf + m.bytes.length - m.bytes.length))
    rw [Nat.add_sub_cancel, drop_left' hpre]
    exact hf.append rest
  · have := hc.room
    simp only [length_append]
    omega
  · change c.rsize - m.bytes.length = _
    rw [Conn.left, hdrop, hc.rsize, hleft, length_append]
    omega
  · simp only [length_append]
    omega
  · have := hc.room
    simp only [length_append]
    omega

/-- A message that is not whole is parsed all the same. -/
theorem takeReq_cut {c : Conn} {m : Tagged} {t : List UInt8} (h : m.2.Handled m.1)
    (hleft : c.left ++ t = m.bytes ++ rest) (hcut : c.left.length < m.bytes.length) :
    takeReq c = .error .unreceived := by
  unfold takeReq
  by_cases h4 : 4 ≤ c.left.length
  · rw [sizeField_bytes h (show 4 ≤ (c.buf.drop c.rbuf).length from h4) hleft]
    exact if_pos hcut
  · rw [sizeField_short (show (c.buf.drop c.rbuf).length < 4 by rw [← Conn.left]; omega)]
    rfl

/-! ## Filling the buffer -/

/-- Only the last piece completes the message. -/
def LastCompletes (size : Nat) (buf : List UInt8) (g : List (List UInt8)) : Prop :=
  ∀ g' b, g = g' ++ [b] → (buf ++ g'.flatten).length < size

theorem LastCompletes.cons {r : List UInt8} (hbuf : buf.length < size)
    (h : LastCompletes size (buf ++ r) g) : LastCompletes size buf (r :: g) := by
  intro g' b hg
  cases g' with
  | nil => simpa using hbuf
  | cons r' g' =>
    obtain ⟨rfl, hg'⟩ := cons.inj (hg : r :: g = r' :: (g' ++ [b]))
    have := h g' b hg'
    rwa [flatten_cons, ← append_assoc]

theorem LastCompletes.tail {r : List UInt8}
    (h : LastCompletes size buf (r :: g)) : buf.length < size ∧ LastCompletes size (buf ++ r) g := by
  constructor
  · rcases eq_nil_or_concat g with rfl | ⟨g', b, rfl⟩
    · simpa using h [] r rfl
    · have := h (r :: g') b (by rw [concat_eq_append, cons_append])
      rw [length_append] at this
      omega
  · intro g' b hg
    have := h (r :: g') b (by rw [hg]; rfl)
    rwa [flatten_cons, ← append_assoc] at this

theorem fill_done (h : ¬ buf.length < size) (rs : List (List UInt8)) : fill size buf rs = .ok (buf, rs) := by
  cases rs <;> exact if_neg h

/-- What it reads is a group of pieces that ends with the one that completes the message. -/
theorem fill_ok {buf' : List UInt8} {rs rs' : List (List UInt8)}
    (h : fill size buf rs = .ok (buf', rs')) (hbuf : buf.length ≤ maxmsglen) : buf'.length ≤ maxmsglen ∧
      ∃ g, rs = g ++ rs' ∧ buf' = buf ++ g.flatten ∧ size ≤ buf'.length ∧ LastCompletes size buf g := by
  induction rs generalizing buf with
  | nil =>
    by_cases hlt : buf.length < size
    · rw [fill, if_pos hlt] at h
      cases h
    · rw [fill_done hlt] at h
      obtain ⟨rfl, rfl⟩ := Prod.mk.inj (Except.ok.inj h)
      exact ⟨hbuf, [], rfl, by simp, by omega, fun g' b hg => by simp at hg⟩
  | cons r rs ih =>
    by_cases hlt : buf.length < size
    swap
    · rw [fill_done hlt] at h
      obtain ⟨rfl, rfl⟩ := Prod.mk.inj (Except.ok.inj h)
      exact ⟨hbuf, [], rfl, by simp, by omega, fun g' b hg => by simp at hg⟩
    rw [fill, if_pos hlt] at h
    by_cases hlong : maxmsglen - buf.length < r.length
    · rw [if_pos hlong] at h
      cases h
    · rw [if_neg hlong] at h
      have hroom : (buf ++ r).length ≤ maxmsglen := by
        rw [length_append]
        omega
      obtain ⟨hle, g, hrs, hb, hsize, hlast⟩ := ih h hroom
      refine ⟨hle, r :: g, by rw [hrs]; rfl, ?_, hsize, hlast.cons hlt⟩
      rw [hb, flatten_cons, append_assoc]

theorem fill_total {rs : List (List UInt8)} (h : size ≤ (buf ++ rs.flatten).length) :
    fill size buf rs = .error .tooLong ∨ ∃ x, fill size buf rs = .ok x := by
  induction rs generalizing buf with
  | nil =>
    rw [flatten_nil, append_nil] at h
    exact .inr ⟨_, if_neg (by omega)⟩
  | cons r rs ih =>
    rw [fill]
    by_cases hlt : buf.length < size
    · rw [if_pos hlt]
      by_cases hlong : maxmsglen - buf.length < r.length
      · exact .inl (if_pos hlong)
      · rw [if_neg hlong]
        exact ih (by rwa [flatten_cons, ← append_assoc] at h)
    · exact .inr ⟨_, if_neg hlt⟩

theorem LastCompletes.unique {g' rs rs' : List (List UInt8)}
    (hlast : LastCompletes size buf g) (hsize : size ≤ (buf ++ g.flatten).length) (hlast' : LastCompletes size buf g')
    (hsize' : size ≤ (buf ++ g'.flatten).length) (heq : g ++ rs = g' ++ rs') : g = g' ∧ rs = rs' := by
  induction g generalizing buf g' with
  | nil =>
    cases g' with
    | nil => exact ⟨rfl, heq⟩
    | cons r' g' =>
      rw [flatten_nil, append_nil] at hsize
      exact absurd hlast'.tail.1 (by omega)
  | cons r g ih =>
    cases g' with
    | nil =>
      rw [flatten_nil, append_nil] at hsize'
      exact absurd hlast.tail.1 (by omega)
    | cons r' g' =>
      obtain ⟨rfl, heq'⟩ := cons.inj (heq : r :: (g ++ rs) = r' :: (g' ++ rs'))
      rw [flatten_cons, ← append_assoc] at hsize hsize'
      obtain ⟨rfl, hrs⟩ := ih hlast.tail.2 hsize hlast'.tail.2 hsize' heq'
      exact ⟨rfl, hrs⟩

/-! ## Whole runs -/

/-- What is in the buffer is whole messages, and the pieces to come are aligned with the others. -/
def AlignedFrom (left : List UInt8) (ms : List Tagged) (rs : List (List UInt8)) : Prop :=
  ∃ batch ms', ms = batch ++ ms' ∧ left = (batch.map Tagged.bytes).flatten ∧ Aligned ms' rs

section
variable {ms : List Tagged} {m : Tagged} {rs : List (List UInt8)} {left : List UInt8}

theorem alignedFrom_nil (hms : ∀ m ∈ ms, m.2.Handled m.1) : AlignedFrom [] ms rs ↔ Aligned ms rs := by
  constructor
  · rintro ⟨batch, ms', rfl, hleft, ha⟩
    cases batch with
    | nil => exact ha
    | cons m batch =>
      have hlen := m.length_bytes (hms m (by simp))
      have := congrArg length hleft
      rw [map_cons, flatten_cons, length_append, length_nil] at this
      omega
  · exact fun ha => ⟨[], ms, rfl, rfl, ha⟩

theorem alignedFrom_cons (hm : m.2.Handled m.1) :
    AlignedFrom (m.bytes ++ left) (m :: ms) rs ↔ AlignedFrom left ms rs := by
  have hlen := m.length_bytes hm
  constructor
  · rintro ⟨batch, ms', heq, hleft, ha⟩
    cases batch with
    | nil =>
      have := congrArg length hleft
      rw [length_append, map_nil, flatten_nil, length_nil] at this
      omega
    | cons m' batch =>
      obtain ⟨rfl, rfl⟩ := cons.inj (heq : m :: ms = m' :: (batch ++ ms'))
      exact ⟨batch, ms', rfl, append_cancel_left hleft, ha⟩
  · rintro ⟨batch, ms', rfl, rfl, ha⟩
    exact ⟨m :: batch, ms', rfl, rfl, ha⟩

theorem not_alignedFrom_cut (hne : left ≠ []) (hcut : left.length < m.bytes.length) :
    ¬ AlignedFrom left (m :: ms) rs := by
  rintro ⟨batch, ms', heq, hleft, -⟩
  cases batch with
  | nil => exact hne hleft
  | cons m' batch =>
    obtain ⟨rfl, -⟩ := cons.inj (heq : m :: ms = m' :: (batch ++ ms'))
    have := congrArg length hleft
    rw [map_cons, flatten_cons, length_append] at this
    omega

theorem aligned_fill {r : List UInt8} {g : List (List UInt8)} (hm : m.2.Handled m.1) (h4 : 4 ≤ r.length)
    (hlast : LastCompletes m.bytes.length r g) (hsize : m.bytes.length ≤ (r ++ g.flatten).length) :
    Aligned (m :: ms) (r :: (g ++ rs)) ↔ AlignedFrom (r ++ g.flatten) (m :: ms) rs := by
  have hlen := m.length_bytes hm
  constructor
  · intro ha
    generalize hpieces : r :: (g ++ rs) = pieces at ha
    cases ha with
    | @refill _ batch ms' r' g' rs' size whole last rest =>
      obtain ⟨rfl, heq⟩ := cons.inj hpieces
      have hsize' : m.bytes.length ≤ (r ++ g'.flatten).length := by
        rw [whole, length_append]
        omega
      obtain ⟨rfl, rfl⟩ := hlast.unique hsize last hsize' heq
      exact ⟨m :: batch, ms', rfl, whole, rest⟩
  · rintro ⟨batch, ms', heq, hleft, ha⟩
    cases batch with
    | nil =>
      have := congrArg length hleft
      rw [map_nil, flatten_nil, length_nil] at this
      omega
    | cons m' batch =>
      obtain ⟨rfl, rfl⟩ := cons.inj (heq : m :: ms = m' :: (batch ++ ms'))
      exact Aligned.refill h4 hleft hlast ha

/-- The state of a run: the messages that are to be received are what is in the buffer and the pieces to come. -/
structure Pending (c : Conn) (rs : List (List UInt8)) (ms : List Tagged) : Prop where
  ok : c.Ok
  handled : ∀ m ∈ ms, m.2.Handled m.1
  pieces : ∀ r ∈ rs, r ≠ []
  cut : c.left ++ rs.flatten = (ms.map Tagged.bytes).flatten
  possible : recvAll ms.length c rs ≠ .error .tooLong

variable {c : Conn}

theorem recvAll_succ {n : Nat} {f : Fcall} {c' : Conn} {rs' : List (List UInt8)}
    (h : p9Recvreq c rs = .ok (f, c', rs')) : recvAll (n + 1) c rs = (recvAll n c' rs').map ((f, c') :: ·) := by
  rw [recvAll, h]
  change (recvAll n c' rs' >>= fun out => Except.ok ((f, c') :: out)) = _
  cases recvAll n c' rs' <;> rfl

theorem recvAll_error {n : Nat} {e : RecvFault} (h : p9Recvreq c rs = .error e) : recvAll (n + 1) c rs = .error e := by
  rw [recvAll, h]
  rfl

theorem p9Recvreq_left (rs : List (List UInt8)) (h : c.rsize ≠ 0) :
    p9Recvreq c rs = (takeReq c).map fun x => (x.1, x.2, rs) := by
  rw [p9Recvreq, if_neg h]
  change (takeReq c >>= fun x => Except.ok (x.1, x.2, rs)) = _
  cases takeReq c <;> rfl

theorem receives_left (h : Pending c rs (m :: ms)) (hne : c.left ≠ [])
    (ih : ∀ c', Pending c' rs ms → (Receives c' rs ms ↔ AlignedFrom c'.left ms rs)) :
    Receives c rs (m :: ms) ↔ AlignedFrom c.left (m :: ms) rs := by
  have hm := h.handled m mem_cons_self
  have hsize : c.rsize ≠ 0 := by
    rw [h.ok.rsize]
    exact fun h0 => hne (length_eq_zero_iff.mp h0)
  have hcut : c.left ++ rs.flatten = m.bytes ++ (ms.map Tagged.bytes).flatten := h.cut
  have hcall := p9Recvreq_left rs hsize
  by_cases hlt : c.left.length < m.bytes.length
  · refine iff_of_false ?_ (not_alignedFrom_cut hne hlt)
    rintro ⟨out, hout, -⟩
    rw [takeReq_cut hm hcut hlt] at hcall
    rw [length_cons, recvAll_error hcall] at hout
    cases hout
  · obtain ⟨rest, hleft⟩ : ∃ rest, c.left = m.bytes ++ rest := by
      obtain ⟨t, ht⟩ : m.bytes <+: c.left :=
        prefix_of_prefix_length_le (prefix_append _ _) (hcut ▸ prefix_append _ _) (by omega)
      exact ⟨t, ht.symm⟩
    obtain ⟨f, c', htake, hgave, hok, hrest⟩ := takeReq_whole h.ok hm hleft
    rw [htake] at hcall
    have hall := recvAll_succ (n := ms.length) hcall
    have hnext : Pending c' rs ms := by
      refine ⟨hok, fun m hm => h.handled m (mem_cons_of_mem _ hm), h.pieces, ?_, fun hlong => ?_⟩
      · rw [hrest]
        rw [hleft, append_assoc] at hcut
        exact append_cancel_left hcut
      · apply h.possible
        rw [length_cons, hall, hlong]
        rfl
    rw [hleft, alignedFrom_cons hm, ← hrest, ← ih c' hnext]
    constructor
    · rintro ⟨out, hout, hgiven⟩
      rw [length_cons, hall] at hout
      cases hr : recvAll ms.length c' rs with
      | error e =>
        rw [hr] at hout
        cases hout
      | ok out' =>
        rw [hr] at hout
        cases hout
        cases hgiven with
        | cons _ hgiven => exact ⟨out', hr, hgiven⟩
    · rintro ⟨out, hout, hgiven⟩
      refine ⟨(f, c') :: out, ?_, .cons hgave hgiven⟩
      rw [length_cons, hall, hout]
      rfl

theorem p9Recvreq_refill {c1 : Conn} {rs' : List (List UInt8)} (h : c.rsize = 0) (hfill : refill rs = .ok (c1, rs'))
    (h1 : c1.rsize ≠ 0) : p9Recvreq c rs = p9Recvreq c1 rs' := by
  rw [p9Recvreq, if_pos h, hfill, p9Recvreq, if_neg h1]

/-- The buffer is filled with a group of pieces, if the first of them has a size. -/
theorem refill_ok {r : List UInt8} (hm : m.2.Handled m.1) (hcut : (r :: rs).flatten = m.bytes ++ left) :
    refill (r :: rs) = .error .tooLong ∨ r.length < 4 ∧ refill (r :: rs) = .error .unreceived ∨
      4 ≤ r.length ∧ ∃ g rs', rs = g ++ rs' ∧ LastCompletes m.bytes.length r g ∧
        m.bytes.length ≤ (r ++ g.flatten).length ∧ (r ++ g.flatten).length ≤ maxmsglen ∧
        refill (r :: rs) = .ok ({ rsize := (r ++ g.flatten).length, buf := r ++ g.flatten, rbuf := 0 }, rs') := by
  by_cases hlong : maxmsglen < r.length
  · refine .inl ?_
    rw [refill, sockRead, if_pos hlong]
    rfl
  have hread : refill (r :: rs) = (do
      let size ← sizeField r
      let (buf, rs) ← fill size r rs
      .ok ({ rsize := buf.length, buf := buf, rbuf := 0 }, rs)) := by
    rw [refill, sockRead, if_neg hlong]
    rfl
  by_cases h4 : r.length < 4
  · refine .inr (.inl ⟨h4, ?_⟩)
    rw [hread, sizeField_short h4]
    rfl
  have hsize : m.bytes.length ≤ (r ++ rs.flatten).length := by
    rw [← flatten_cons, hcut, length_append]
    omega
  rw [hread, sizeField_bytes hm (by omega) hcut]
  rcases fill_total hsize with hf | ⟨⟨buf, rs'⟩, hf⟩
  · refine .inl ?_
    change (fill m.bytes.length r rs >>= _) = _
    rw [hf]
    rfl
  · obtain ⟨hroom, g, rfl, rfl, hge, hlast⟩ := fill_ok hf (by omega)
    refine .inr (.inr ⟨by omega, g, rs', rfl, hlast, hge, hroom, ?_⟩)
    change (fill m.bytes.length r (g ++ rs') >>= _) = _
    rw [hf]
    rfl

end

theorem receives_iff {c : Conn} {rs : List (List UInt8)} {ms : List Tagged} (h : Pending c rs ms) :
    Receives c rs ms ↔ AlignedFrom c.left ms rs := by
  induction ms generalizing c rs with
  | nil =>
    have hnil := append_eq_nil_iff.mp h.cut
    have hrs : rs = [] := by
      cases rs with
      | nil => rfl
      | cons r rs =>
        have := (append_eq_nil_iff.mp (flatten_cons ▸ hnil.2)).1
        exact absurd this (h.pieces r mem_cons_self)
    rw [hnil.1, hrs]
    exact iff_of_true ⟨[], rfl, .nil⟩ ⟨[], [], rfl, rfl, .nil⟩
  | cons m ms ih =>
    by_cases hne : c.left = []
    swap
    · exact receives_left h hne fun c' h' => ih h'
    have hm := h.handled m mem_cons_self
    have hlen := m.length_bytes hm
    have hcut : rs.flatten = m.bytes ++ (ms.map Tagged.bytes).flatten := by
      have := h.cut
      rwa [hne] at this
    have hsize : c.rsize = 0 := by rw [h.ok.rsize, hne, length_nil]
    rw [hne, alignedFrom_nil h.handled]
    cases rs with
    | nil =>
      have := congrArg length hcut
      rw [flatten_nil, length_nil, length_append] at this
      omega
    | cons r rs =>
      rcases refill_ok hm hcut with hlong | ⟨h4, hcutoff⟩ | ⟨h4, g, rs', rfl, hlast, hge, hroom, hfill⟩
      · -- no such `read`
        refine absurd (recvAll_error ?_) h.possible
        rw [p9Recvreq, if_pos hsize, hlong]
        rfl
      · refine iff_of_false ?_ ?_
        · rintro ⟨out, hout, -⟩
          have hcall : p9Recvreq c (r :: rs) = .error .unreceived := by
            rw [p9Recvreq, if_pos hsize, hcutoff]
            rfl
          rw [length_cons, recvAll_error hcall] at hout
          cases hout
        · intro ha
          cases ha
          omega
      · -- the call goes on as one that finds the group in the buffer
        rw [aligned_fill hm h4 hlast hge]
        generalize hc1 : ({ rsize := (r ++ g.flatten).length, buf := r ++ g.flatten, rbuf := 0 } : Conn) = c1 at hfill
        have hleft : c1.left = r ++ g.flatten := by
          rw [← hc1]
          rfl
        have hsize1 : c1.rsize ≠ 0 := by
          rw [← hc1]
          change (r ++ g.flatten).length ≠ 0
          omega
        have hall : recvAll (m :: ms).length c (r :: (g ++ rs')) = recvAll (m :: ms).length c1 rs' := by
          rw [length_cons, recvAll, recvAll, p9Recvreq_refill hsize hfill hsize1]
        have hpend : Pending c1 rs' (m :: ms) := by
          refine ⟨?_, h.handled, fun x hx => h.pieces x (by simp [hx]), ?_, hall ▸ h.possible⟩
          · rw [← hc1]
            exact ⟨rfl, Nat.zero_le _, hroom⟩
          · rw [hleft, append_assoc, ← flatten_append, ← flatten_cons, hcut]
            rfl
        have hne1 : c1.left ≠ [] := by
          intro h0
          rw [hleft] at h0
          rw [h0, length_nil] at hge
          omega
        rw [← hleft, ← receives_left hpend hne1 fun c' h' => ih h', Receives, Receives, hall]

/-- **Messages are received as they are sent.**  For every sequence of messages and every way `read` returns their
bytes in pieces, successive calls return the messages, parse nothing that has not been received and keep
inside the buffer, exactly if the pieces are aligned with the messages. -/
theorem recvFrames {ms : List Tagged} {rs : List (List UInt8)} (hms : ∀ m ∈ ms, m.2.Handled m.1)
    (hne : ∀ r ∈ rs, r ≠ []) (hcut : rs.flatten = (ms.map Tagged.bytes).flatten)
    (hread : recvAll ms.length Conn.init rs ≠ .error .tooLong) : Receives Conn.init rs ms ↔ Aligned ms rs := by
  have h : Pending Conn.init rs ms := ⟨⟨rfl, le_rfl, Nat.zero_le _⟩, hms, hne, hcut, hread⟩
  rw [receives_iff h]
  exact alignedFrom_nil hms

/-- A Tclunk. -/
def clunkOf (tag : UInt16) (fid : UInt32) : Tagged := (tag, .clunk fid)

theorem clunkOf_handled (tag : UInt16) (fid : UInt32) : (clunkOf tag fid).2.Handled (clunkOf tag fid).1 := by
  refine ⟨?_, ?_, ?_, ?_⟩
  · simp [clunkOf, TMsg.encode, TMsg.payload, maxmsglen]
  · intro s hs
    cases hs
  · rintro _ _ _ ⟨⟩
  · rintro _ _ ⟨⟩

theorem twoClunks_handled : ∀ m ∈ [clunkOf 1 5, clunkOf 2 6], m.2.Handled m.1 := by
  intro m hm
  rcases (by simpa using hm : m = clunkOf 1 5 ∨ m = clunkOf 2 6) with rfl | rfl
  · exact clunkOf_handled 1 5
  · exact clunkOf_handled 2 6

/-- The first piece ends inside the first message, and the second is the rest of it and another. -/
theorem recvFrames_two : Receives Conn.init
    [[11, 0, 0, 0, 120], [1, 0, 5, 0, 0, 0, 11, 0, 0, 0, 120, 2, 0, 6, 0, 0, 0]] [clunkOf 1 5, clunkOf 2 6] := by
  refine (recvFrames ?_ ?_ ?_ ?_).mpr ?_
  · exact twoClunks_handled
  · decide
  · decide
  · rintro ⟨⟩
  · have h : Aligned (clunkOf 1 5 :: ([clunkOf 2 6] ++ []))
        ([11, 0, 0, 0, 120] :: ([[1, 0, 5, 0, 0, 0, 11, 0, 0, 0, 120, 2, 0, 6, 0, 0, 0]] ++ [])) := by
      refine Aligned.refill (by decide) (by decide) (fun g' b hg => ?_) .nil
      obtain ⟨rfl, -⟩ := append_inj' (show [] ++ _ = _ from hg) rfl
      decide
    exact h

/-- The first piece is a message and three bytes of the next: its size is read with a byte that has not come. -/
theorem recv_parses_unreceived : ∃ ms rs, (∀ m ∈ ms, m.2.Handled m.1) ∧ (∀ r ∈ rs, r ≠ []) ∧
    rs.flatten = (ms.map Tagged.bytes).flatten ∧ recvAll ms.length Conn.init rs = .error .unreceived ∧
    ¬ Receives Conn.init rs ms := by
  refine ⟨[clunkOf 1 5, clunkOf 2 6],
    [[11, 0, 0, 0, 120, 1, 0, 5, 0, 0, 0, 11, 0, 0], [0, 120, 2, 0, 6, 0, 0, 0]], twoClunks_handled, by decide, by decide,
    rfl, ?_⟩
  rintro ⟨out, hout, -⟩
  cases hout

end InternetOs.P9
