import InternetOs.Lib.CircularBuffer
import InternetOs.Lib.Run

/-!
# Console input (`kernel/dev/console.c`)

`consoleintr` edits and commits the input, `consoleread` takes what is committed; the three counters wrap.  A step is a
critical section, as for pipes: a reader that finds nothing sleeps in the middle of its call, and goes on at any time
later.  The echo of the input is left out.

The purpose is the `Line`: what is committed, and the tail that may still be edited.  A control-D in it stands for an
end of file, which a reader gets as a result of 0.

    w - r ≤ e - r ≤ INPUT_BUF, and what was delivered is a prefix of what was committed   (consoleLines)
-/

namespace InternetOs.Dev

open SeqNum Circular Function

/-- `INPUT_BUF`. -/
def inputBuf : Nat := 128

def ctrlD : UInt8 := 4
def ctrlH : UInt8 := 8
def ctrlP : UInt8 := 16
def ctrlU : UInt8 := 21
def del : UInt8 := 0x7f
def lf : UInt8 := 10
def cr : UInt8 := 13

/-! ## The code -/

/-- `cons`. -/
structure Cons where
  buf : Nat → UInt8
  r : UInt32
  w : UInt32
  e : UInt32

/-- The loop for control-U; it runs at most `e - w` times. -/
def killLoop : Nat → Cons → Cons
  | 0, cons => cons
  | fuel + 1, cons =>
    if cons.e ≠ cons.w ∧ cons.buf ((cons.e - 1).toNat % inputBuf) ≠ lf then killLoop fuel { cons with e := cons.e - 1 }
    else cons

/-- `cons.buf[cons.e++ % INPUT_BUF] = c`. -/
def Cons.append (cons : Cons) (c : UInt8) : Cons :=
  { cons with buf := update cons.buf (cons.e.toNat % inputBuf) c, e := cons.e + 1 }

def consoleintr (cons : Cons) (c : UInt8) : Cons :=
  if c = ctrlP then cons
  else if c = ctrlU then killLoop (ahead cons.w cons.e) cons
  else if c = ctrlH ∨ c = del then
    if cons.e ≠ cons.w then { cons with e := cons.e - 1 } else cons
  else if c ≠ 0 ∧ cons.e - cons.r < UInt32.ofNat inputBuf then
    let c := if c = cr then lf else c
    let cons := cons.append c
    if c = lf ∨ c = ctrlD ∨ cons.e = cons.r + UInt32.ofNat inputBuf then { cons with w := cons.e } else cons
  else cons

/-- How a critical section of `consoleread` ends; a process that sleeps has `n` bytes to go. -/
inductive ConsEnd
  | ret (v : Int)
  | sleep (n : Nat)
  deriving DecidableEq, Repr

/-- `consoleread` with `n` bytes to go; `got` are the bytes it has copied. -/
def consoleread (killed : Bool) (target : Nat) : Nat → Cons → List UInt8 → Cons × List UInt8 × ConsEnd
  | 0, cons, got => (cons, got, .ret target)
  | n + 1, cons, got =>
    if cons.r = cons.w then
      if killed then (cons, got, .ret (-1)) else (cons, got, .sleep (n + 1))
    else
      let c := cons.buf (cons.r.toNat % inputBuf)
      let cons := { cons with r := cons.r + 1 }
      if c = ctrlD then
        -- a caller that has bytes gets them first; the control-D is left for the next call
        let cons := if n + 1 < target then { cons with r := cons.r - 1 } else cons
        (cons, got, .ret (target - (n + 1) : Nat))
      else if c = lf then (cons, got ++ [c], .ret (target - n : Nat))
      else consoleread killed target n cons (got ++ [c])

/-! ## The purpose -/

/-- The input as the users see it. -/
structure Line where
  committed : List UInt8
  tail : List UInt8

/-- What a reader gets: a byte, or an end of file. -/
inductive Item
  | byte (c : UInt8)
  | eof
  deriving DecidableEq, Repr

def item (c : UInt8) : Item := if c = ctrlD then .eof else .byte c

/-- A character of input, when `delivered` items were read. -/
def Line.input (line : Line) (delivered : Nat) (c : UInt8) : Line :=
  let unread := line.committed.length - delivered + line.tail.length
  if c = 0 ∨ c = ctrlP then line
  else if c = ctrlU then { line with tail := [] }
  else if c = ctrlH ∨ c = del then { line with tail := line.tail.dropLast }
  else if inputBuf ≤ unread then line
  else
    let c := if c = cr then lf else c
    let tail := line.tail ++ [c]
    if c = lf ∨ c = ctrlD ∨ unread + 1 = inputBuf then { committed := line.committed ++ tail, tail := [] }
    else { line with tail := tail }

/-! ## The system -/

/-- Where a process is: outside, or asleep in `consoleread`. -/
inductive ConsPlace
  | user
  | reading (target n : Nat) (got : List UInt8)
  deriving DecidableEq, Repr

/-- The bytes a process has in the call it is in. -/
def ConsPlace.got : ConsPlace → List UInt8
  | .user => []
  | .reading _ _ got => got

/-- The console and its readers.  Ghosts: the line, the items in the order in which they were taken, and the results of
the calls in the order in which they returned. -/
structure Console where
  cons : Cons
  place : Nat → ConsPlace
  line : Line
  out : List Item
  returned : List Item

def Console.init (buf : Nat → UInt8) : Console :=
  { cons := { buf := buf, r := 0, w := 0, e := 0 }, place := fun _ => .user, line := { committed := [], tail := [] }
    out := [], returned := [] }

inductive ConsEv
  | intr (c : UInt8)
  | read (p n : Nat) (killed : Bool)
  | resume (p : Nat) (killed : Bool)

/-- What a result of `v` is worth to the caller, who has `got` in its buffer. -/
def resultItems (got : List UInt8) (v : Int) : List Item :=
  if v < 0 then [] else if v = 0 then [.eof] else (got.take v.toNat).map .byte

/-- The process `p` ends a critical section, which it began with `before` in its buffer. -/
def Console.finish (s : Console) (p target : Nat) (before : List UInt8) (x : Cons × List UInt8 × ConsEnd) : Console :=
  let new := (x.2.1.drop before.length).map .byte
  match x.2.2 with
  | .ret v =>
    { s with
      cons := x.1, place := update s.place p .user
      out := s.out ++ new ++ (if v = 0 then [.eof] else [])
      returned := s.returned ++ resultItems x.2.1 v }
  | .sleep n =>
    { s with cons := x.1, place := update s.place p (.reading target n x.2.1), out := s.out ++ new }

def Console.step (s : Console) : ConsEv → Option Console
  | .intr c => some { s with cons := consoleintr s.cons c, line := s.line.input s.out.length c }
  | .read p n killed =>
    if 0 < n ∧ s.place p = .user then some (s.finish p n [] (consoleread killed n n s.cons [])) else none
  | .resume p killed =>
    match s.place p with
    | .user => none
    | .reading target n got => some (s.finish p target got (consoleread killed target n s.cons got))

/-! ## The line in the buffer -/

/-- The committed part of the buffer is what was committed and not delivered, the rest is the tail. -/
structure Cons.Holds (cons : Cons) (line : Line) (out : List Item) : Prop where
  order : ahead cons.r cons.w ≤ ahead cons.r cons.e
  bound : ahead cons.r cons.e ≤ inputBuf
  unread : line.committed.map item = out ++ (contents inputBuf cons.buf cons.r cons.w).map item
  tail : contents inputBuf cons.buf cons.w cons.e = line.tail
  open_ : lf ∉ line.tail

section
variable {cons : Cons} {line : Line} {out : List Item} {c : UInt8}

theorem inputBuf_dvd : inputBuf ∣ 2 ^ 32 := by decide

theorem Cons.Holds.tail_length (h : cons.Holds line out) : ahead cons.w cons.e = line.tail.length := by
  rw [← h.tail, contents_length]

theorem Cons.Holds.unread_length (h : cons.Holds line out) :
    line.committed.length - out.length + line.tail.length = ahead cons.r cons.e := by
  have hlen := congrArg List.length h.unread
  rw [List.length_append, List.length_map, List.length_map, contents_length] at hlen
  rw [← h.tail_length, ← ahead_add_ahead h.order]
  omega

theorem Cons.Holds.erase (h : cons.Holds line out) (hne : cons.e ≠ cons.w) :
    { cons with e := cons.e - 1 }.Holds { line with tail := line.tail.dropLast } out := by
  have hlast := contents_last cons.buf inputBuf_dvd (Ne.symm hne)
  have hwe := ahead_pred (Ne.symm hne)
  have hsum := ahead_add_ahead h.order
  have hre : cons.r ≠ cons.e := fun heq => by
    have hzero := (ahead_eq_zero cons.r cons.e).mpr heq.symm
    omega
  have hpred := ahead_pred hre
  have hbound := h.bound
  refine ⟨?_, ?_, h.unread, ?_, fun hmem => h.open_ (List.dropLast_subset _ hmem)⟩
  · show ahead cons.r cons.w ≤ ahead cons.r (cons.e - 1)
    omega
  · show ahead cons.r (cons.e - 1) ≤ inputBuf
    omega
  · show contents inputBuf cons.buf cons.w (cons.e - 1) = line.tail.dropLast
    rw [← h.tail, hlast, List.dropLast_concat]

/-- Control-U takes back the whole tail: there is no end of line in it. -/
theorem killLoop_eq (n : Nat) (hn : ahead cons.w cons.e = n) (h : cons.Holds line out) :
    (killLoop n cons).Holds { line with tail := [] } out := by
  induction n generalizing cons line with
  | zero =>
    have htail : line.tail = [] := List.length_eq_zero_iff.mp (by rw [← h.tail_length, hn])
    rw [← htail]
    exact h
  | succ n ih =>
    have hne : cons.e ≠ cons.w := fun heq => by
      rw [heq, ahead_self] at hn
      omega
    have hlast := contents_last cons.buf inputBuf_dvd (Ne.symm hne)
    have hlf : cons.buf ((cons.e - 1).toNat % inputBuf) ≠ lf := fun heq => by
      apply h.open_
      rw [← h.tail, hlast, heq]
      simp
    have hpred := ahead_pred (Ne.symm hne)
    unfold killLoop
    rw [if_pos ⟨hne, hlf⟩]
    have hrest : ahead cons.w (cons.e - 1) = n := by omega
    have hkilled := ih hrest (h.erase hne)
    exact hkilled

theorem Cons.Holds.append (h : cons.Holds line out) (hlt : ahead cons.r cons.e < inputBuf) (c : UInt8) :
    ahead cons.r (cons.e + 1) = ahead cons.r cons.e + 1 ∧
    (cons.append c).r = cons.r ∧ (cons.append c).w = cons.w ∧ (cons.append c).e = cons.e + 1 ∧
    contents inputBuf (cons.append c).buf cons.r cons.w = contents inputBuf cons.buf cons.r cons.w ∧
    contents inputBuf (cons.append c).buf cons.w (cons.e + 1) = line.tail ++ [c] := by
  have hsum := ahead_add_ahead h.order
  refine ⟨ahead_succ (by unfold inputBuf at hlt; omega), rfl, rfl, rfl, ?_, ?_⟩
  · exact contents_update inputBuf_dvd h.order hlt c
  · rw [← h.tail]
    exact contents_push inputBuf_dvd (by decide) (by omega) c

theorem Cons.Holds.full_iff (h : cons.Holds line out) :
    cons.e - cons.r < UInt32.ofNat inputBuf ↔ ¬ inputBuf ≤ line.committed.length - out.length + line.tail.length := by
  rw [h.unread_length, not_le]
  exact Iff.rfl

/-- A character that is kept: it stays in the tail, or it commits the tail. -/
theorem Cons.Holds.keep (h : cons.Holds line out) (hlt : ahead cons.r cons.e < inputBuf) (c : UInt8) :
    (if c = lf ∨ c = ctrlD ∨ (cons.append c).e = (cons.append c).r + UInt32.ofNat inputBuf then
        { cons.append c with w := (cons.append c).e } else cons.append c).Holds
      (if c = lf ∨ c = ctrlD ∨ line.committed.length - out.length + line.tail.length + 1 = inputBuf then
        { committed := line.committed ++ (line.tail ++ [c]), tail := [] }
      else { line with tail := line.tail ++ [c] }) out := by
  obtain ⟨hsucc, hr, hw, he, hcommitted, htail⟩ := h.append hlt c
  have hfull : (cons.append c).e = (cons.append c).r + UInt32.ofNat inputBuf ↔
      line.committed.length - out.length + line.tail.length + 1 = inputBuf := by
    rw [h.unread_length, ← hsucc]
    exact (ahead_eq_iff (k := UInt32.ofNat inputBuf)).symm
  have horder := h.order
  rw [if_congr (or_congr_right (or_congr_right hfull)) rfl rfl]
  split
  · refine ⟨?_, ?_, ?_, ?_, by simp⟩
    · exact le_rfl
    · show ahead cons.r (cons.e + 1) ≤ inputBuf
      omega
    · show (line.committed ++ (line.tail ++ [c])).map item =
        out ++ (contents inputBuf (cons.append c).buf cons.r (cons.e + 1)).map item
      rw [contents_split inputBuf_dvd (w := cons.w) (by omega), hcommitted, htail, List.map_append, h.unread,
        List.append_assoc, ← List.map_append]
    · exact contents_self
  · next hopen =>
    refine ⟨?_, ?_, ?_, htail, ?_⟩
    · show ahead cons.r cons.w ≤ ahead cons.r (cons.e + 1)
      omega
    · show ahead cons.r (cons.e + 1) ≤ inputBuf
      omega
    · show line.committed.map item = out ++ (contents inputBuf (cons.append c).buf cons.r cons.w).map item
      rw [hcommitted]
      exact h.unread
    · intro hmem
      rcases List.mem_append.mp hmem with hmem | hmem
      · exact h.open_ hmem
      · exact hopen (.inl (List.mem_singleton.mp hmem).symm)

/-- `consoleintr` does to the buffer what the character does to the line. -/
theorem Cons.Holds.consoleintr (h : cons.Holds line out) (c : UInt8) :
    (consoleintr cons c).Holds (line.input out.length c) out := by
  unfold Dev.consoleintr Line.input
  by_cases hp : c = ctrlP
  · rw [if_pos hp, if_pos (.inr hp)]
    exact h
  rw [if_neg hp]
  by_cases h0 : c = 0
  · subst h0
    exact h
  rw [if_neg (show ¬ (c = 0 ∨ c = ctrlP) from fun hc => hc.elim h0 hp)]
  by_cases hu : c = ctrlU
  · rw [if_pos hu, if_pos hu]
    exact killLoop_eq _ rfl h
  rw [if_neg hu, if_neg hu]
  by_cases hh : c = ctrlH ∨ c = del
  · rw [if_pos hh, if_pos hh]
    by_cases hne : cons.e ≠ cons.w
    · rw [if_pos hne]
      exact h.erase hne
    · have htail : line.tail = [] := by
        rw [← h.tail, not_not.mp hne, contents_self]
      rw [if_neg hne, htail, List.dropLast_nil, ← htail]
      exact h
  rw [if_neg hh, if_neg hh]
  by_cases hfull : inputBuf ≤ line.committed.length - out.length + line.tail.length
  · rw [if_pos hfull, if_neg fun hc => h.full_iff.mp hc.2 hfull]
    exact h
  · rw [if_neg hfull, if_pos ⟨h0, h.full_iff.mpr hfull⟩]
    exact h.keep (by rw [← h.unread_length]; omega) _

/-! ## Readers -/

/-- What a critical section of `consoleread` takes, besides the bytes: an end of file if the call returns 0. -/
def ConsEnd.eof : ConsEnd → List Item
  | .ret v => if v = 0 then [.eof] else []
  | .sleep _ => []

theorem Cons.Holds.take (h : cons.Holds line out) (hne : cons.r ≠ cons.w) :
    { cons with r := cons.r + 1 }.Holds line (out ++ [item (cons.buf (cons.r.toNat % inputBuf))]) := by
  have hpop := contents_pop cons.buf inputBuf_dvd hne
  have hrw := ahead_succ_left hne
  have horder := h.order
  have hbound := h.bound
  have hre : cons.r ≠ cons.e := fun heq => by
    have hzero := (ahead_eq_zero cons.r cons.e).mpr heq.symm
    omega
  have hre' := ahead_succ_left hre
  refine ⟨?_, ?_, ?_, h.tail, h.open_⟩
  · show ahead (cons.r + 1) cons.w ≤ ahead (cons.r + 1) cons.e
    omega
  · show ahead (cons.r + 1) cons.e ≤ inputBuf
    omega
  · show _ = (out ++ [_]) ++ (contents inputBuf cons.buf (cons.r + 1) cons.w).map item
    rw [h.unread, hpop, List.map_cons, List.append_assoc, List.singleton_append]

/-- A critical section of `consoleread` that begins with `got`. -/
structure ReadSpec (killed : Bool) (line : Line) (out : List Item) (target : Nat) (got : List UInt8)
    (x : Cons × List UInt8 × ConsEnd) : Prop where
  grows : got <+: x.2.1
  holds : x.1.Holds line (out ++ (x.2.1.drop got.length).map .byte ++ x.2.2.eof)
  ret : ∀ v, x.2.2 = .ret v → v = -1 ∧ killed = true ∨ v = x.2.1.length
  sleep : ∀ n, x.2.2 = .sleep n → 0 < n ∧ x.2.1.length + n = target

theorem ReadSpec.byte {killed : Bool} {target : Nat} {got : List UInt8} {x : Cons × List UInt8 × ConsEnd}
    (h : ReadSpec killed line (out ++ [.byte c]) target (got ++ [c]) x) : ReadSpec killed line out target got x := by
  obtain ⟨rest, hrest⟩ := h.grows
  have hdrop : x.2.1.drop got.length = c :: x.2.1.drop (got ++ [c]).length := by
    rw [← hrest, List.append_assoc, List.drop_left, ← List.append_assoc, List.drop_left]
    rfl
  refine ⟨(List.prefix_append got [c]).trans h.grows, ?_, h.ret, h.sleep⟩
  rw [hdrop]
  have := h.holds
  rwa [List.append_assoc out] at this

theorem item_byte (h : c ≠ ctrlD) : item c = .byte c := if_neg h

theorem ReadSpec.of_ret {killed : Bool} {target : Nat} {got : List UInt8} {v : Int}
    (hv : v = -1 ∧ killed = true ∨ v = got.length) (h : cons.Holds line (out ++ (ConsEnd.ret v).eof)) :
    ReadSpec killed line out target got (cons, got, .ret v) := by
  refine ⟨List.prefix_refl _, ?_, fun v' hv' => ?_, fun n hs => by cases hs⟩
  · show cons.Holds line (out ++ (got.drop got.length).map .byte ++ _)
    rw [List.drop_length, List.map_nil, List.append_nil]
    exact h
  · rw [← ConsEnd.ret.inj hv']
    exact hv

theorem consoleread_spec (killed : Bool) {target : Nat} {got : List UInt8} (h : cons.Holds line out) (n : Nat)
    (hn : got.length + n = target) (ht : 0 < target) :
    ReadSpec killed line out target got (consoleread killed target n cons got) := by
  -- a result other than 0 takes nothing but the bytes
  have hplain : ∀ {v : Int} {cons : Cons} {out : List Item}, v ≠ 0 → cons.Holds line out →
      cons.Holds line (out ++ (ConsEnd.ret v).eof) := fun hv h => by
    rw [show (ConsEnd.ret _).eof = [] from if_neg hv, List.append_nil]
    exact h
  induction n generalizing cons out got with
  | zero => exact .of_ret (.inr (by omega)) (hplain (by omega) h)
  | succ n ih =>
    unfold consoleread
    split
    · split
      · next hk => exact .of_ret (.inl ⟨rfl, hk⟩) (hplain (by decide) h)
      · refine ⟨List.prefix_refl _, ?_, fun v hs => ?_, fun m hs => ?_⟩
        · show cons.Holds line (out ++ (got.drop got.length).map .byte ++ [])
          rw [List.drop_length, List.map_nil, List.append_nil, List.append_nil]
          exact h
        · cases hs
        · rw [← ConsEnd.sleep.inj hs]
          exact ⟨Nat.succ_pos n, hn⟩
    · next hne =>
      have htake := h.take hne
      dsimp only
      split
      · next hd =>
        rw [hd] at htake
        split
        · rw [UInt32.add_sub_cancel]
          exact .of_ret (.inr (by omega)) (hplain (by omega) h)
        · refine .of_ret (.inr (by omega)) ?_
          rw [show target - (n + 1) = 0 by omega]
          exact htake
      · next hd =>
        rw [item_byte hd] at htake
        split
        · exact .byte (.of_ret (.inr (by rw [List.length_append, List.length_singleton]; omega))
            (hplain (by omega) htake))
        · exact .byte (ih htake (by rw [List.length_append, List.length_singleton]; omega))

end

/-! ## Runs -/

structure Console.Inv (s : Console) : Prop where
  holds : s.cons.Holds s.line s.out
  places : ∀ p target n got, s.place p = .reading target n got → 0 < n ∧ got.length + n = target

/-- Of one process `p` all calls but the one it is in have returned. -/
def Console.InTurn (s : Console) (p : Nat) : Prop := s.out = s.returned ++ (s.place p).got.map .byte

/-- All calls are made by `p`, which is not killed. -/
def ConsEv.By (p : Nat) : ConsEv → Prop
  | .intr _ => True
  | .read q _ killed => q = p ∧ killed = false
  | .resume q killed => q = p ∧ killed = false

section
variable {s s' : Console} {killed : Bool} {p target : Nat} {got : List UInt8} {x : Cons × List UInt8 × ConsEnd}

theorem Console.finish_inv (h : s.Inv) (hx : ReadSpec killed s.line s.out target got x) :
    (s.finish p target got x).Inv := by
  obtain ⟨cons', got', fin⟩ := x
  have hholds := hx.holds
  have hsleep := hx.sleep
  cases fin with
  | ret v =>
    refine ⟨hholds, fun q t n g hq => ?_⟩
    by_cases hqp : q = p
    · subst hqp
      cases (update_self q _ s.place).symm.trans hq
    · exact h.places q t n g ((update_of_ne hqp _ _).symm.trans hq)
  | sleep m =>
    rw [show (ConsEnd.sleep m).eof = [] from rfl, List.append_nil] at hholds
    refine ⟨hholds, fun q t n g hq => ?_⟩
    by_cases hqp : q = p
    · subst hqp
      cases (update_self q _ s.place).symm.trans hq
      exact hsleep m rfl
    · exact h.places q t n g ((update_of_ne hqp _ _).symm.trans hq)

/-- The items of a call that returns are those that were taken in it. -/
theorem resultItems_eq {v : Int} (hv : v = got.length) :
    resultItems got v = got.map .byte ++ (ConsEnd.ret v).eof := by
  unfold resultItems
  rw [if_neg (by omega), show (ConsEnd.ret v).eof = if v = 0 then [.eof] else [] from rfl]
  by_cases h0 : v = 0
  · have hnil : got = [] := List.length_eq_zero_iff.mp (by omega)
    rw [if_pos h0, if_pos h0, hnil]
    rfl
  · rw [if_neg h0, if_neg h0, List.append_nil, hv, Int.toNat_natCast, List.take_length]

theorem Console.finish_inTurn (h : s.InTurn p) (hgot : (s.place p).got = got)
    (hx : ReadSpec false s.line s.out target got x) : (s.finish p target got x).InTurn p := by
  obtain ⟨cons', got', fin⟩ := x
  obtain ⟨rest, hrest⟩ : got <+: got' := hx.grows
  have hmap : got.map Item.byte ++ (got'.drop got.length).map .byte = got'.map .byte := by
    rw [← List.map_append, ← hrest, List.drop_left]
  have hout : s.out ++ (got'.drop got.length).map .byte = s.returned ++ got'.map .byte := by
    rw [h, hgot, List.append_assoc, hmap]
  have hret := hx.ret
  cases fin with
  | ret v =>
    have hv : v = got'.length := (hret v rfl).resolve_left fun hk => Bool.noConfusion hk.2
    show s.out ++ (got'.drop got.length).map .byte ++ (ConsEnd.ret v).eof =
      s.returned ++ resultItems got' v ++ (update s.place p .user p).got.map .byte
    rw [hout, resultItems_eq hv, update_self, List.append_assoc]
    exact (List.append_nil _).symm
  | sleep m =>
    show s.out ++ (got'.drop got.length).map .byte =
      s.returned ++ (update s.place p (.reading target m got') p).got.map .byte
    rw [hout, update_self]
    rfl

theorem Console.resume_some (hs : s.step (.resume p killed) = some s') : ∃ target n got,
    s.place p = .reading target n got ∧ s' = s.finish p target got (consoleread killed target n s.cons got) := by
  unfold Console.step at hs
  dsimp only at hs
  split at hs
  · cases hs
  · next target n got hp => exact ⟨target, n, got, hp, (Option.some.inj hs).symm⟩

theorem Console.step_inv {e : ConsEv} (h : s.Inv) (hs : s.step e = some s') : s'.Inv := by
  cases e with
  | intr c =>
    cases hs
    exact ⟨h.holds.consoleintr c, h.places⟩
  | read p n killed =>
    obtain ⟨⟨hn, -⟩, hf⟩ := Option.ite_none_right_eq_some.mp hs
    cases hf
    exact Console.finish_inv h (consoleread_spec killed h.holds n (zero_add n) hn)
  | resume p killed =>
    obtain ⟨target, n, got, hp, rfl⟩ := Console.resume_some hs
    obtain ⟨hn, hlen⟩ := h.places p target n got hp
    exact Console.finish_inv h (consoleread_spec killed h.holds n hlen (by omega))

theorem Console.step_inTurn {e : ConsEv} (h : s.Inv) (hp : s.InTurn p) (he : e.By p) (hs : s.step e = some s') :
    s'.InTurn p := by
  cases e with
  | intr c =>
    cases hs
    exact hp
  | read q n killed =>
    obtain ⟨rfl, rfl⟩ := he
    obtain ⟨⟨hn, hplace⟩, hf⟩ := Option.ite_none_right_eq_some.mp hs
    cases hf
    exact Console.finish_inTurn hp (by rw [hplace]; rfl) (consoleread_spec false h.holds n (zero_add n) hn)
  | resume q killed =>
    obtain ⟨rfl, rfl⟩ := he
    obtain ⟨target, n, got, hplace, rfl⟩ := Console.resume_some hs
    obtain ⟨hn, hlen⟩ := h.places q target n got hplace
    exact Console.finish_inTurn hp (by rw [hplace]; rfl) (consoleread_spec false h.holds n hlen (by omega))

theorem Console.Inv.init (buf : Nat → UInt8) : (Console.init buf).Inv := by
  refine ⟨⟨?_, ?_, ?_, ?_, ?_⟩, fun p target n got hp => by cases hp⟩
  · exact le_rfl
  · show ahead 0 0 ≤ inputBuf
    exact Nat.zero_le _
  · show [] = [] ++ (contents inputBuf buf 0 0).map item
    rfl
  · exact contents_self
  · exact List.not_mem_nil

/-- In every run the counters are in order, and what the readers took is a prefix of what was committed.  If one process
makes all the calls, so are the results of its calls one after the other. -/
theorem consoleLines {buf : Nat → UInt8} {evs : List ConsEv}
    (h : Run (fun s e s' => Console.step s e = some s') (.init buf) evs s) :
    ahead s.cons.r s.cons.w ≤ ahead s.cons.r s.cons.e ∧ ahead s.cons.r s.cons.e ≤ inputBuf ∧
      s.out <+: s.line.committed.map item ∧
      ∀ p, (∀ e ∈ evs, e.By p) → s.returned <+: s.line.committed.map item := by
  have hinv : s.Inv := Run.inv (I := Console.Inv) (fun _ _ _ hi hs => Console.step_inv hi hs) h (.init buf)
  have hpre : s.out <+: s.line.committed.map item := ⟨_, hinv.holds.unread.symm⟩
  refine ⟨hinv.holds.order, hinv.holds.bound, hpre, fun p hby => ?_⟩
  have hturn : s.Inv ∧ ((∀ e ∈ evs, e.By p) → s.InTurn p) :=
    Run.inv_trace (I := fun evs s => s.Inv ∧ ((∀ e ∈ evs, e.By p) → s.InTurn p))
      (fun evs s e s' hi hs => ⟨Console.step_inv hi.1 hs, fun hall => Console.step_inTurn hi.1
        (hi.2 fun e' he' => hall e' (List.mem_append_left _ he')) (hall e (by simp)) hs⟩)
      h ⟨.init buf, fun _ => rfl⟩
  have hret : s.returned <+: s.out := ⟨_, (hturn.2 hby).symm⟩
  exact hret.trans hpre

/-- A letter, a letter that is taken back, a letter, the end of the line, a control-D; three reads, the last of which
sleeps. -/
def typedLine : List ConsEv :=
  [.intr 97, .intr 120, .intr del, .intr 98, .intr cr, .intr ctrlD, .read 0 10 false, .read 0 10 false,
    .read 0 10 false]

theorem consoleLines_typed : ∃ s, Run (fun s e s' => Console.step s e = some s') (.init fun _ => 0) typedLine s ∧
    s.returned = [.byte 97, .byte 98, .byte lf, .eof] ∧ s.returned <+: s.line.committed.map item := by
  have hrun : Run (fun s e s' => Console.step s e = some s') (.init fun _ => 0) typedLine _ :=
    .cons rfl (.cons rfl (.cons rfl (.cons rfl (.cons rfl (.cons rfl (.cons rfl (.cons rfl (.cons rfl (.nil _)))))))))
  refine ⟨_, hrun, rfl, (consoleLines hrun).2.2.2 0 ?_⟩
  simp [typedLine, ConsEv.By]

end

end InternetOs.Dev
