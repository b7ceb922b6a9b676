import InternetOs.User.Sh
import Mathlib.Data.List.Forall2

/-!
# The shell's parser reads the grammar

A position `s` of the line spells tokens when the rest of the line shows them (`Spells`); `peek` and `gettoken` keep to
the tokens, so the parser is followed on token lists, by induction over the derivation.

    Derives .line ts t → Layout ts src → parsecmd src = .ok (cmd, buf) with cmd.Shows buf t       (shellRoundTrip)
-/

namespace InternetOs.User

open List Item

/-! ## Characters -/

theorem isWordChar_iff {c : UInt8} : isWordChar c = true ↔ c ∉ whitespace ∧ c ∉ symbols := by
  simp [isWordChar]

/-- The first character of a token. -/
def Tok.first (t : Tok) : UInt8 := t.chars.headD 0

theorem Word.exists_cons (w : Word) : ∃ c cs, w.chars = c :: cs ∧ c ≠ 0 ∧ isWordChar c = true := by
  cases h : w.chars with
  | nil => exact absurd h w.ne_nil
  | cons c cs => exact ⟨c, cs, rfl, w.plain c (by simp [h])⟩

theorem Tok.chars_ne_nil (t : Tok) : t.chars ≠ [] := by
  cases t with
  | word w => exact w.ne_nil
  | _ => exact cons_ne_nil _ _

theorem Tok.chars_length_pos (t : Tok) : 0 < t.chars.length := length_pos_iff.2 t.chars_ne_nil

theorem Tok.head?_chars_append (t : Tok) (text : List UInt8) : (t.chars ++ text).head? = some t.first := by
  cases h : t.chars with
  | nil => exact absurd h t.chars_ne_nil
  | cons c cs => simp [first, h]

theorem Tok.first_word_isWordChar (w : Word) : isWordChar (Tok.word w).first = true := by
  obtain ⟨c, cs, h, -, hc⟩ := w.exists_cons
  simpa [first, chars, h] using hc

theorem Tok.first_ne_zero (t : Tok) : t.first ≠ 0 := by
  cases t with
  | word w =>
    obtain ⟨c, cs, h, hc, -⟩ := w.exists_cons
    simpa [first, chars, h] using hc
  | _ => decide

theorem Tok.first_not_space (t : Tok) : isSpace t.first = false := by
  cases t with
  | word w =>
    have h := (isWordChar_iff.1 (first_word_isWordChar w)).1
    simpa [isSpace] using h
  | _ => decide

/-! ## The lexer -/

theorem takeWhile_append_stop {p : UInt8 → Bool} {xs ys : List UInt8} (hx : ∀ c ∈ xs, p c = true)
    (hy : ∀ c ∈ ys.head?, p c = false) : (xs ++ ys).takeWhile p = xs := by
  rw [takeWhile_append_of_pos hx]
  cases ys with
  | nil => simp
  | cons y ys => simp [hy y rfl]

/-- The rest of the line from `s` on shows the tokens. -/
def Spells (src : List UInt8) (s : Nat) (ts : List Tok) : Prop := s ≤ src.length ∧ Layout ts (src.drop s)

variable {src : List UInt8} {s : Nat} {t : Tok} {ts rest : List Tok}

theorem drop_of_drop_eq_append {xs ys : List UInt8} (h : src.drop s = xs ++ ys) :
    src.drop (s + xs.length) = ys := by
  rw [← drop_drop, h, drop_left]

theorem le_length_of_drop_eq_append {xs ys : List UInt8} (hs : s ≤ src.length) (h : src.drop s = xs ++ ys) :
    s + xs.length ≤ src.length := by
  have := congrArg length h
  simp only [length_drop, length_append] at this
  omega

theorem skipSpace_of_drop {xs ys : List UInt8} (h : src.drop s = xs ++ ys) (hx : ∀ c ∈ xs, isSpace c = true)
    (hy : ∀ c ∈ ys.head?, isSpace c = false) : skipSpace src s = s + xs.length := by
  rw [skipSpace, h, takeWhile_append_stop hx hy]

theorem charAt_of_drop {c : UInt8} {text : List UInt8} (h : src.drop s = text) (hc : text.head? = some c) :
    charAt src s = c := by
  rw [charAt, getD_eq_getElem?_getD, ← head?_drop, h, hc]
  rfl

theorem charAt_length : charAt src src.length = 0 := by simp [charAt]

theorem Spells.skip_nil (h : Spells src s []) : skipSpace src s = src.length := by
  have := skipSpace_of_drop (append_nil _).symm h.2 (by simp)
  rw [this, length_drop]
  have := h.1
  omega

theorem Spells.skip_cons (h : Spells src s (t :: ts)) :
    ∃ text, skipSpace src s ≤ src.length ∧ src.drop (skipSpace src s) = t.chars ++ text ∧ ¬ t.RunsInto text ∧
      Layout ts text := by
  obtain ⟨hs, spaces, text, hsp, heq, hrun, hts⟩ := h
  have hskip : skipSpace src s = s + spaces.length := by
    refine skipSpace_of_drop heq hsp fun c hc => ?_
    rw [t.head?_chars_append, Option.mem_some_iff] at hc
    rw [← hc]
    exact t.first_not_space
  rw [hskip]
  exact ⟨text, le_length_of_drop_eq_append hs heq, drop_of_drop_eq_append heq, hrun, hts⟩

theorem Spells.skip (h : Spells src s ts) : Spells src (skipSpace src s) ts := by
  cases ts with
  | nil =>
    rw [h.skip_nil]
    exact ⟨Nat.le_refl _, by simp [Layout]⟩
  | cons t ts =>
    obtain ⟨text, hle, hdrop, hrun, hts⟩ := h.skip_cons
    exact ⟨hle, [], text, by simp, hdrop, hrun, hts⟩

/-- The first token is one of those that start with a character of `toks`. -/
def startsWith (toks : List Char) : List Tok → Bool
  | [] => false
  | t :: _ => (toks.map Char.toUInt8).contains t.first

theorem Spells.peek_eq (h : Spells src s ts) (toks : List Char) :
    peek src s toks = (startsWith toks ts, skipSpace src s) := by
  unfold peek
  cases ts with
  | nil => simp [h.skip_nil, charAt_length, startsWith]
  | cons t ts =>
    obtain ⟨text, -, hdrop, -, -⟩ := h.skip_cons
    have hc := charAt_of_drop hdrop (t.head?_chars_append text)
    simp [hc, t.first_ne_zero, startsWith]

theorem startsWith_word (toks : List Char) (w : Word) (htoks : toks.map Char.toUInt8 ⊆ symbols) :
    startsWith toks (.word w :: ts) = false := by
  have h := (isWordChar_iff.1 (Tok.first_word_isWordChar w)).2
  have : (Tok.word w).first ∉ toks.map Char.toUInt8 := fun hm => h (htoks hm)
  simpa [startsWith] using this

/-- What `gettoken` returns for the token. -/
def Tok.code : Tok → UInt8
  | .word _ => 'a'.toUInt8
  | .gtgt => '+'.toUInt8
  | t => t.first

/-- The slice is the word, and ends where the word ends in the line. -/
def WordAt (src : List UInt8) (arg : Nat × Nat) (w : Word) : Prop :=
  arg.2 = arg.1 + w.chars.length ∧ (∃ text, src.drop arg.1 = w.chars ++ text) ∧
    ∀ c ∈ src[arg.2]?, isWordChar c = false

theorem scan_word {w : Word} {q : Nat} {text : List UInt8} (h : src.drop q = w.chars ++ text)
    (hrun : ¬ (Tok.word w).RunsInto text) : scan src q = ('a'.toUInt8, q + w.chars.length) := by
  have hfirst := Tok.first_word_isWordChar w
  have hne := (isWordChar_iff.1 hfirst).2
  have hc : charAt src q = (Tok.word w).first := charAt_of_drop h ((Tok.word w).head?_chars_append text)
  have hsingle : (Tok.word w).first ∉ ['|', '(', ')', ';', '&', '<'].map Char.toUInt8 :=
    fun hm => hne ((by decide : ['|', '(', ')', ';', '&', '<'].map Char.toUInt8 ⊆ symbols) hm)
  have hgt : (Tok.word w).first ≠ '>'.toUInt8 := fun he => hne (he ▸ (by decide))
  have htake : (src.drop q).takeWhile isWordChar = w.chars := by
    rw [h]
    refine takeWhile_append_stop (fun c hc => (w.plain c hc).2) fun c hc => ?_
    exact Bool.eq_false_iff.2 fun hw => hrun ⟨c, hc, hw⟩
  simp only [scan, hc, if_neg (Tok.first_ne_zero _), if_neg hsingle, if_neg hgt, htake]

theorem scan_tok {q : Nat} {text : List UInt8} (h : src.drop q = t.chars ++ text) (hrun : ¬ t.RunsInto text) :
    scan src q = (t.code, q + t.chars.length) := by
  have hc : charAt src q = t.first := charAt_of_drop h (t.head?_chars_append text)
  cases t with
  | word w => exact scan_word h hrun
  | gt =>
    have hdrop : src.drop (q + 1) = text := drop_of_drop_eq_append h
    have hnext : charAt src (q + 1) ≠ '>'.toUInt8 := by
      intro he
      cases text with
      | nil => rw [charAt, getD_eq_getElem?_getD, ← head?_drop, hdrop] at he; exact absurd he (by decide)
      | cons c cs =>
        rw [charAt_of_drop hdrop rfl] at he
        exact hrun (congrArg some he)
    unfold scan
    rw [hc, if_neg (Tok.first_ne_zero _), if_neg hnext]
    rfl
  | gtgt =>
    have hnext : charAt src (q + 1) = '>'.toUInt8 :=
      charAt_of_drop (drop_of_drop_eq_append (show src.drop q = ['>'.toUInt8] ++ ('>'.toUInt8 :: text) from h)) rfl
    unfold scan
    rw [hc, if_neg (Tok.first_ne_zero _), if_pos hnext]
    rfl
  | _ =>
    unfold scan
    rw [hc]
    rfl

theorem Spells.gettoken_cons (h : Spells src s (t :: ts)) :
    (gettoken src s).ret = t.code ∧ Spells src (gettoken src s).next ts ∧
      ∀ w, t = .word w → WordAt src ((gettoken src s).q, (gettoken src s).eq) w := by
  obtain ⟨text, hle, hdrop, hrun, hts⟩ := h.skip_cons
  have hscan := scan_tok hdrop hrun
  have hrest : src.drop (skipSpace src s + t.chars.length) = text := drop_of_drop_eq_append hdrop
  have hspell : Spells src (skipSpace src s + t.chars.length) ts :=
    ⟨le_length_of_drop_eq_append hle hdrop, by rw [hrest]; exact hts⟩
  simp only [gettoken, hscan]
  refine ⟨trivial, hspell.skip, ?_⟩
  rintro w rfl
  refine ⟨rfl, ⟨text, hdrop⟩, fun c hc => ?_⟩
  rw [← head?_drop, hrest] at hc
  exact Bool.eq_false_iff.2 fun hw => hrun ⟨c, hc, hw⟩

theorem Spells.gettoken_nil (h : Spells src s []) :
    (gettoken src s).ret = 0 ∧ Spells src (gettoken src s).next [] := by
  have hscan : scan src src.length = (0, src.length) := by simp [scan, charAt_length]
  have hend : Spells src src.length [] := ⟨Nat.le_refl _, by simp [Layout]⟩
  simp only [gettoken, h.skip_nil, hscan]
  exact ⟨trivial, hend.skip⟩

/-! ## Redirections and words -/

theorem layout_length {text : List UInt8} (h : Layout ts text) : ts.length ≤ text.length := by
  induction ts generalizing text with
  | nil => exact Nat.zero_le _
  | cons t ts ih =>
    obtain ⟨spaces, rest, -, rfl, -, hts⟩ := h
    have := ih hts
    have := t.chars_length_pos
    simp only [length_cons, length_append]
    omega

theorem Spells.length_le (h : Spells src s ts) : ts.length ≤ src.length := by
  have := layout_length h.2
  rw [length_drop] at this
  omega

/-- The tokens end, or go on with one that starts with a character of `stops`. -/
def Follows (stops : List Char) (ts : List Tok) : Prop := ∀ t ∈ ts.head?, t.first ∈ stops.map Char.toUInt8

theorem Follows.mono {stops stops' : List Char} (h : Follows stops ts)
    (hsub : stops.map Char.toUInt8 ⊆ stops'.map Char.toUInt8) : Follows stops' ts :=
  fun t ht => hsub (h t ht)

theorem Follows.startsWith_eq_false {stops toks : List Char} (h : Follows stops ts)
    (hdis : (stops.map Char.toUInt8).all (fun c => !(toks.map Char.toUInt8).contains c) = true) :
    startsWith toks ts = false := by
  cases ts with
  | nil => rfl
  | cons t ts => simpa [startsWith] using all_eq_true.1 hdis _ (h t rfl)

theorem Follows.cons {stops : List Char} (h : t.first ∈ stops.map Char.toUInt8) : Follows stops (t :: ts) := by
  intro t' ht'
  cases ht'
  exact h

/-- The tree's words stand in the line, as slices. -/
def Cmd.Slices (src : List UInt8) : Cmd → Tree → Prop := Matches (WordAt src)

variable {cmd : Cmd} {tr : Tree}

theorem redirLoop_stop (fuel : Nat) (h : Spells src s ts) (hts : startsWith ['<', '>'] ts = false) :
    redirLoop src (fuel + 1) cmd s = .ok (cmd, skipSpace src s) := by
  rw [redirLoop, h.peek_eq, hts]
  rfl

theorem redirLoop_redir (fuel : Nat) {r : Redir} (h : Spells src s (r.toks ++ ts)) (hc : cmd.Slices src tr) :
    ∃ cmd' s', redirLoop src (fuel + 1) cmd s = redirLoop src fuel cmd' s' ∧ cmd'.Slices src (tr.addRedir r) ∧
      Spells src s' ts := by
  obtain ⟨hop, hnext, -⟩ := h.skip.gettoken_cons
  obtain ⟨hfile, hrest, hword⟩ := hnext.gettoken_cons
  have hredir := Cmd.Matches.redir r.op.mode hc (hword r.file rfl)
  have hpeek : startsWith ['<', '>'] (r.toks ++ ts) = true := by
    cases hop : r.op <;> simp [Redir.toks, hop, startsWith, RedirOp.tok, Tok.first, Tok.chars]
  refine ⟨_, _, ?_, hredir, hrest⟩
  rw [redirLoop, h.peek_eq, hpeek]
  rw [if_pos rfl, if_neg (by rw [hfile]; exact not_not.2 rfl), hop]
  cases r.op with
  | lt => rw [if_pos (by decide)]; rfl
  | gt | gtgt => rw [if_neg (by decide)]; rfl

theorem redirLoop_redirs {rs : List Redir} {fuel : Nat} (h : Spells src s (rs.flatMap Redir.toks ++ rest))
    (hstop : startsWith ['<', '>'] rest = false) (hc : cmd.Slices src tr) (hfuel : rs.length < fuel) :
    ∃ cmd' s', redirLoop src fuel cmd s = .ok (cmd', s') ∧ cmd'.Slices src (rs.foldl Tree.addRedir tr) ∧
      Spells src s' rest := by
  induction rs generalizing s cmd tr fuel with
  | nil =>
    obtain ⟨fuel, rfl⟩ := Nat.exists_eq_add_of_lt hfuel
    exact ⟨_, _, redirLoop_stop _ h hstop, hc, h.skip⟩
  | cons r rs ih =>
    obtain ⟨fuel, rfl⟩ : ∃ n, fuel = n + 1 := ⟨fuel - 1, by omega⟩
    obtain ⟨cmd', s', hstep, hc', h'⟩ := redirLoop_redir fuel h hc
    rw [hstep]
    exact ih h' hc' (by simpa using hfuel)

/-- A further word of the command under the redirections. -/
def Tree.addArg : Tree → Word → Tree
  | .exec args, w => .exec (args ++ [w])
  | .redir cmd mode file, w => .redir (cmd.addArg w) mode file
  | t, _ => t

theorem Cmd.Matches.addArg {R : Nat × Nat → Word → Prop} {arg : Nat × Nat} {w : Word} (h : cmd.Matches R tr)
    (hw : R arg w) : (cmd.addArg arg).Matches R (tr.addArg w) := by
  induction h with
  | exec h => exact .exec (rel_append h (.cons hw .nil))
  | redir mode _ hfile ih => exact .redir mode ih hfile
  | pipe hl hr => exact .pipe hl hr
  | list hl hr => exact .list hl hr
  | back h => exact .back h

def Tree.addItem (t : Tree) : Item → Tree
  | .word w => t.addArg w
  | .redir r => t.addRedir r

theorem addArg_foldl_addRedir (rs : List Redir) (t : Tree) (w : Word) :
    (rs.foldl Tree.addRedir t).addArg w = rs.foldl Tree.addRedir (t.addArg w) := by
  induction rs generalizing t with
  | nil => rfl
  | cons r rs ih => exact ih (t.addRedir r)

/-- Reading the items one by one gives the EXEC node of all words under all redirections. -/
theorem foldl_addItem (items : List Item) (rs : List Redir) (args : List Word) :
    items.foldl Tree.addItem (rs.foldl Tree.addRedir (.exec args)) =
      (rs ++ items.filterMap redir?).foldl Tree.addRedir (.exec (args ++ items.filterMap word?)) := by
  induction items generalizing rs args with
  | nil => simp
  | cons item items ih =>
    cases item with
    | word w =>
      rw [foldl_cons, Tree.addItem, addArg_foldl_addRedir]
      have := ih rs (args ++ [w])
      rw [append_assoc] at this
      exact this
    | redir r =>
      have := ih (rs ++ [r]) args
      rw [foldl_append, append_assoc] at this
      exact this

theorem argLoop_stop (cmd : Cmd) (fuel argc : Nat) (h : Spells src s rest) (hrest : Follows ['|', ')', '&', ';'] rest) :
    ∃ s', argLoop src (fuel + 1) cmd argc s = .ok (cmd, s') ∧ Spells src s' rest := by
  rw [argLoop, h.peek_eq]
  cases rest with
  | nil =>
    obtain ⟨hret, hnext⟩ := h.skip.gettoken_nil
    refine ⟨_, ?_, hnext⟩
    simp only [startsWith, Bool.false_eq_true, if_false, hret, if_true]
  | cons t rest =>
    have hstarts : startsWith ['|', ')', '&', ';'] (t :: rest) = true := by
      simpa [startsWith] using hrest t rfl
    rw [hstarts]
    exact ⟨_, rfl, h.skip⟩

theorem argLoop_word (fuel : Nat) {argc : Nat} {w : Word} (h : Spells src s (.word w :: ts))
    (hargc : argc + 1 < maxArgs) (hc : cmd.Slices src tr) : ∃ cmd' s', argLoop src (fuel + 1) cmd argc s =
        (parseredirs src cmd' s' >>= fun r => argLoop src fuel r.1 (argc + 1) r.2) ∧
      cmd'.Slices src (tr.addArg w) ∧ Spells src s' ts := by
  obtain ⟨hret, hnext, hword⟩ := h.skip.gettoken_cons
  rw [Tok.code] at hret
  refine ⟨_, _, ?_, hc.addArg (hword w rfl), hnext⟩
  rw [argLoop, h.peek_eq, startsWith_word _ _ (by decide)]
  dsimp only
  rw [if_neg (by decide), hret, if_neg (by decide), if_neg (by exact not_not.2 rfl), if_neg (by omega)]

/-- The redirections and words of a command without parentheses: `parseredirs`, then the loop of `parseexec`. -/
theorem items_read {items : List Item} {argc fuel fuel' : Nat} (h : Spells src s (items.flatMap toks ++ rest))
    (hrest : Follows ['|', ')', '&', ';'] rest) (hc : cmd.Slices src tr)
    (hargc : argc + (items.filterMap word?).length < maxArgs) (hfuel : items.length < fuel)
    (hfuel' : items.length < fuel') (hlen : items.length ≤ src.length) :
    ∃ cmd' s', (redirLoop src fuel cmd s >>= fun r => argLoop src fuel' r.1 argc r.2) = .ok (cmd', s') ∧
      cmd'.Slices src (items.foldl Tree.addItem tr) ∧ Spells src s' rest := by
  induction items generalizing s cmd tr argc fuel fuel' with
  | nil =>
    obtain ⟨fuel, rfl⟩ : ∃ n, fuel = n + 1 := ⟨fuel - 1, by omega⟩
    obtain ⟨fuel', rfl⟩ : ∃ n, fuel' = n + 1 := ⟨fuel' - 1, by omega⟩
    obtain ⟨s', hargs, hs'⟩ := argLoop_stop cmd fuel' argc h.skip hrest
    rw [redirLoop_stop fuel h (hrest.startsWith_eq_false (by decide))]
    exact ⟨cmd, s', hargs, hc, hs'⟩
  | cons item items ih =>
    obtain ⟨fuel, rfl⟩ : ∃ n, fuel = n + 1 := ⟨fuel - 1, by omega⟩
    obtain ⟨fuel', rfl⟩ : ∃ n, fuel' = n + 1 := ⟨fuel' - 1, by omega⟩
    simp only [length_cons, Nat.add_lt_add_iff_right] at hfuel hfuel' hlen
    cases item with
    | redir r =>
      obtain ⟨cmd', s', hstep, hc', h'⟩ := redirLoop_redir fuel h hc
      rw [hstep]
      exact ih h' hc' hargc hfuel (by omega) (by omega)
    | word w =>
      have hargc' : argc + 1 + (items.filterMap word?).length < maxArgs := by
        simp only [word?, filterMap_cons, length_cons] at hargc
        omega
      have : argc + 1 < maxArgs := by omega
      rw [redirLoop_stop fuel h (startsWith_word _ _ (by decide))]
      obtain ⟨cmd', s', hstep, hc', h'⟩ := argLoop_word fuel' h.skip this hc
      change ∃ cmd' s', argLoop src (fuel' + 1) cmd argc (skipSpace src s) = _ ∧ _
      rw [hstep]
      exact ih h' hc' hargc' (by omega) hfuel' (by omega)

/-! ## Lines -/

theorem backLoop_amps {k fuel : Nat} (h : Spells src s (replicate k .amp ++ rest))
    (hstop : startsWith ['&'] rest = false) (hc : cmd.Slices src tr) (hfuel : k < fuel) :
    ∃ cmd' s', backLoop src fuel cmd s = .ok (cmd', s') ∧ cmd'.Slices src (tr.backs k) ∧ Spells src s' rest := by
  induction k generalizing s cmd tr fuel with
  | zero =>
    obtain ⟨fuel, rfl⟩ : ∃ n, fuel = n + 1 := ⟨fuel - 1, by omega⟩
    have hpeek := h.peek_eq ['&']
    rw [replicate_zero, nil_append, hstop] at hpeek
    refine ⟨cmd, _, ?_, hc, h.skip⟩
    rw [backLoop, hpeek]
    rfl
  | succ k ih =>
    obtain ⟨fuel, rfl⟩ : ∃ n, fuel = n + 1 := ⟨fuel - 1, by omega⟩
    obtain ⟨-, hnext, -⟩ := h.skip.gettoken_cons
    rw [backLoop, h.peek_eq]
    exact ih hnext (.back hc) (by omega)

/-- The function that parses the level. -/
def parseAt (src : List UInt8) : Level → Nat → Nat → Except Stop (Cmd × Nat)
  | .line => parseline src
  | .pipe => parsepipe src
  | .exec => parseexec src

/-- What may come after the level. -/
def Level.stops : Level → List Char
  | .line => [')']
  | .pipe => [')', '&', ';']
  | .exec => ['|', ')', '&', ';']

/-- Enough fuel for the level. -/
def Level.fuel (ts : List Tok) : Level → Nat
  | .line => 4 * ts.length + 4
  | .pipe => 4 * ts.length + 3
  | .exec => 4 * ts.length + 2

/-- From every position that spells the tokens, the level's function reads them and gives the tree. -/
def Reads (src : List UInt8) (lvl : Level) (ts : List Tok) (t : Tree) : Prop :=
  ∀ (s : Nat) (rest : List Tok) (fuel : Nat), Spells src s (ts ++ rest) → Follows lvl.stops rest → lvl.fuel ts ≤ fuel →
    ∃ cmd s', parseAt src lvl fuel s = .ok (cmd, s') ∧ cmd.Slices src t ∧ Spells src s' rest

theorem items_length_le (items : List Item) : items.length ≤ (items.flatMap toks).length := by
  induction items with
  | nil => exact Nat.le_refl _
  | cons item items ih =>
    rw [flatMap_cons, length_append]
    cases item <;> simp only [toks, Redir.toks, length_cons] <;> omega

theorem startsWith_paren_items (items : List Item) (hrest : Follows Level.exec.stops rest) :
    startsWith ['('] (items.flatMap toks ++ rest) = false := by
  cases items with
  | nil => exact hrest.startsWith_eq_false (by decide)
  | cons item items =>
    cases item with
    | word w => exact startsWith_word _ _ (by decide)
    | redir r =>
      obtain ⟨op, file⟩ := r
      cases op <;> rfl

theorem reads_simple (src : List UInt8) (items : List Item) (h : (items.filterMap word?).length < maxArgs) :
    Reads src .exec (items.flatMap toks) (simpleTree items) := by
  intro s rest fuel hs hrest hfuel
  obtain ⟨fuel, rfl⟩ : ∃ n, fuel = n + 1 := ⟨fuel - 1, by simp only [Level.fuel] at hfuel; omega⟩
  have hlen : items.length ≤ src.length := by
    have := items_length_le items
    have := hs.length_le
    rw [length_append] at this
    omega
  have hpeek := hs.peek_eq ['(']
  rw [startsWith_paren_items items hrest] at hpeek
  have hempty : (Cmd.exec []).Slices src (.exec []) := .exec .nil
  have hargc : 0 + (items.filterMap word?).length < maxArgs := by omega
  obtain ⟨cmd, s', hrun, hc, hs'⟩ := items_read hs.skip hrest hempty hargc
    (Nat.lt_succ_of_le hlen) (Nat.lt_succ_of_le hlen) hlen
  refine ⟨cmd, s', ?_, ?_, hs'⟩
  · rw [parseAt, parseexec, hpeek]
    exact hrun
  · have := foldl_addItem items [] []
    rw [nil_append, nil_append] at this
    rw [simpleTree, ← this]
    exact hc

theorem redirs_length_le (rs : List Redir) : rs.length ≤ (rs.flatMap Redir.toks).length := by
  induction rs with
  | nil => exact Nat.le_refl _
  | cons r rs ih =>
    rw [flatMap_cons, length_append, length_cons, Redir.toks, length_cons]
    omega

theorem reads_block {t : Tree} (rs : List Redir) (ih : Reads src .line ts t) :
    Reads src .exec (.lparen :: (ts ++ .rparen :: rs.flatMap Redir.toks)) (rs.foldl Tree.addRedir t) := by
  intro s rest fuel hs hrest hfuel
  simp only [Level.fuel, length_cons, length_append] at hfuel
  obtain ⟨fuel, rfl⟩ : ∃ n, fuel = n + 2 := ⟨fuel - 2, by omega⟩
  have hlen : rs.length ≤ src.length := by
    have := redirs_length_le rs
    have := hs.length_le
    simp only [length_cons, length_append] at this
    omega
  rw [cons_append, append_assoc] at hs
  obtain ⟨-, hline, -⟩ := hs.skip.skip.gettoken_cons
  obtain ⟨cmd, s1, hrun, hc, hs1⟩ := ih _ _ fuel hline (.cons (by decide)) (by simp only [Level.fuel]; omega)
  obtain ⟨-, hredirs, -⟩ := hs1.skip.gettoken_cons
  obtain ⟨cmd', s', hrun', hc', hs'⟩ :=
    redirLoop_redirs hredirs (hrest.startsWith_eq_false (by decide)) hc (Nat.lt_succ_of_le hlen)
  refine ⟨cmd', s', ?_, hc', hs'⟩
  rw [parseAt, parseexec, hs.peek_eq]
  change parseblock src (fuel + 1) (skipSpace src s) = _
  rw [parseblock, hs.skip.peek_eq]
  change (parseline src fuel _ >>= _) = _
  rw [show parseline src fuel _ = _ from hrun]
  dsimp only [bind, Except.bind]
  rw [hs1.peek_eq]
  exact hrun'

theorem reads_single {t : Tree} (ih : Reads src .exec ts t) : Reads src .pipe ts t := by
  intro s rest fuel hs hrest hfuel
  simp only [Level.fuel] at hfuel
  obtain ⟨fuel, rfl⟩ : ∃ n, fuel = n + 1 := ⟨fuel - 1, by omega⟩
  obtain ⟨cmd, s1, hrun, hc, hs1⟩ := ih s rest fuel hs (hrest.mono (by decide)) (by simp only [Level.fuel]; omega)
  refine ⟨cmd, _, ?_, hc, hs1.skip⟩
  rw [parseAt, parsepipe, show parseexec src fuel s = _ from hrun]
  dsimp only [bind, Except.bind]
  rw [hs1.peek_eq, hrest.startsWith_eq_false (by decide)]
  rfl

theorem reads_pipe {ts' : List Tok} {l r : Tree} (ihl : Reads src .exec ts l) (ihr : Reads src .pipe ts' r) :
    Reads src .pipe (ts ++ .bar :: ts') (.pipe l r) := by
  intro s rest fuel hs hrest hfuel
  simp only [Level.fuel, length_append, length_cons] at hfuel
  obtain ⟨fuel, rfl⟩ : ∃ n, fuel = n + 1 := ⟨fuel - 1, by omega⟩
  rw [append_assoc] at hs
  obtain ⟨left, s1, hrun, hl, hs1⟩ := ihl s _ fuel hs (.cons (by decide)) (by simp only [Level.fuel]; omega)
  obtain ⟨-, hnext, -⟩ := hs1.skip.gettoken_cons
  obtain ⟨right, s2, hrun', hr, hs2⟩ := ihr _ rest fuel hnext hrest (by simp only [Level.fuel]; omega)
  refine ⟨_, s2, ?_, .pipe hl hr, hs2⟩
  rw [parseAt, parsepipe, show parseexec src fuel s = _ from hrun]
  dsimp only [bind, Except.bind]
  rw [hs1.peek_eq]
  change Except.bind (parsepipe src fuel _) _ = _
  rw [show parsepipe src fuel _ = _ from hrun']
  rfl

/-- The start of `parseline`: a pipe and the ampersands after it. -/
theorem pipe_backs {t : Tree} {k fuel : Nat} (ih : Reads src .pipe ts t)
    (hs : Spells src s (ts ++ (replicate k .amp ++ rest))) (hrest : Follows [')', ';'] rest)
    (hfuel : 4 * ts.length + 3 ≤ fuel) :
    ∃ cmd s', (parsepipe src fuel s >>= fun c => backLoop src (src.length + 1) c.1 c.2) = .ok (cmd, s') ∧
      cmd.Slices src (t.backs k) ∧ Spells src s' rest := by
  have hfollow : Follows Level.pipe.stops (replicate k .amp ++ rest) := by
    cases k with
    | zero => exact hrest.mono (by decide)
    | succ k => exact .cons (by decide)
  have hk : k < src.length + 1 := by
    have := hs.length_le
    simp only [length_append, length_replicate] at this
    omega
  obtain ⟨cmd, s1, hrun, hc, hs1⟩ := ih s _ fuel hs hfollow hfuel
  obtain ⟨cmd', s', hrun', hc', hs'⟩ := backLoop_amps hs1 (hrest.startsWith_eq_false (by decide)) hc hk
  refine ⟨cmd', s', ?_, hc', hs'⟩
  rw [show parsepipe src fuel s = _ from hrun]
  exact hrun'

theorem parseline_eq (fuel : Nat) : parseline src (fuel + 1) s = (do
    let c ← parsepipe src fuel s >>= fun c => backLoop src (src.length + 1) c.1 c.2
    let p := peek src c.2 [';']
    if p.1 then
      let r ← parseline src fuel (gettoken src p.2).next
      .ok (.list c.1 r.1, r.2)
    else .ok (c.1, p.2)) := by
  rw [parseline]
  cases parsepipe src fuel s <;> rfl

theorem reads_backs {t : Tree} (k : Nat) (ih : Reads src .pipe ts t) :
    Reads src .line (ts ++ replicate k .amp) (t.backs k) := by
  intro s rest fuel hs hrest hfuel
  simp only [Level.fuel, length_append] at hfuel
  obtain ⟨fuel, rfl⟩ : ∃ n, fuel = n + 1 := ⟨fuel - 1, by omega⟩
  rw [append_assoc] at hs
  have hpipe : 4 * ts.length + 3 ≤ fuel := by omega
  obtain ⟨cmd, s', hrun, hc, hs'⟩ := pipe_backs ih hs (hrest.mono (by decide)) hpipe
  refine ⟨cmd, _, ?_, hc, hs'.skip⟩
  rw [parseAt, parseline_eq, hrun]
  dsimp only [bind, Except.bind]
  rw [hs'.peek_eq, hrest.startsWith_eq_false (by decide)]
  rfl

theorem reads_list {ts' : List Tok} {l r : Tree} (k : Nat) (ihl : Reads src .pipe ts l) (ihr : Reads src .line ts' r) :
    Reads src .line (ts ++ (replicate k .amp ++ .semi :: ts')) (.list (l.backs k) r) := by
  intro s rest fuel hs hrest hfuel
  simp only [Level.fuel, length_append, length_cons] at hfuel
  obtain ⟨fuel, rfl⟩ : ∃ n, fuel = n + 1 := ⟨fuel - 1, by omega⟩
  rw [append_assoc, append_assoc] at hs
  have hpipe : 4 * ts.length + 3 ≤ fuel := by omega
  obtain ⟨left, s1, hrun, hl, hs1⟩ := pipe_backs ihl hs (.cons (by decide)) hpipe
  obtain ⟨-, hnext, -⟩ := hs1.skip.gettoken_cons
  obtain ⟨right, s2, hrun', hr, hs2⟩ := ihr _ rest fuel hnext hrest (by simp only [Level.fuel]; omega)
  refine ⟨_, s2, ?_, .list hl hr, hs2⟩
  rw [parseAt, parseline_eq, hrun]
  dsimp only [bind, Except.bind]
  rw [hs1.peek_eq]
  change Except.bind (parseline src fuel _) _ = _
  rw [show parseline src fuel _ = _ from hrun']
  rfl

theorem Derives.reads {lvl : Level} {t : Tree} (h : Derives lvl ts t) : Reads src lvl ts t := by
  induction h with
  | simple items h => exact reads_simple src items h
  | block rs _ ih => exact reads_block rs ih
  | single _ ih => exact reads_single ih
  | pipe _ _ ihl ihr => exact reads_pipe ihl ihr
  | backs k _ ih => exact reads_backs k ih
  | list k _ _ ihl ihr => exact reads_list k ihl ihr

/-! ## Ending the strings -/

/-- The slices that `nulterminate` ends, in its order. -/
def Cmd.slices : Cmd → List (Nat × Nat)
  | .exec argv => argv
  | .redir cmd file efile _ _ => cmd.slices ++ [(file, efile)]
  | .pipe left right => left.slices ++ right.slices
  | .list left right => left.slices ++ right.slices
  | .back cmd => cmd.slices

theorem nulterminate_eq (buf : Nat → UInt8) (cmd : Cmd) :
    nulterminate buf cmd = cmd.slices.foldl (fun buf arg => endString buf arg.2) buf := by
  induction cmd generalizing buf with
  | exec argv => rfl
  | redir cmd file efile mode fd ih => rw [nulterminate, ih, Cmd.slices, foldl_append]; rfl
  | pipe _ _ ihl ihr | list _ _ ihl ihr => rw [nulterminate, ihl, ihr, Cmd.slices, foldl_append]
  | back cmd ih => exact ih buf

theorem foldl_endString (args : List (Nat × Nat)) (buf : Nat → UInt8) (i : Nat) :
    args.foldl (fun buf arg => endString buf arg.2) buf i = if i ∈ args.map Prod.snd then 0 else buf i := by
  induction args generalizing buf with
  | nil => simp
  | cons arg args ih =>
    rw [foldl_cons, ih]
    by_cases hi : i = arg.2
    · simp [endString, hi]
    · simp only [endString, Function.update_of_ne hi, map_cons, mem_cons, hi, false_or]

theorem Cmd.Matches.slices {R : Nat × Nat → Word → Prop} (h : cmd.Matches R tr) :
    ∀ arg ∈ cmd.slices, ∃ w, R arg w := by
  induction h with
  | exec h =>
    intro arg harg
    induction h with
    | nil => cases harg
    | cons hw _ ih =>
      rcases mem_cons.1 harg with rfl | harg
      · exact ⟨_, hw⟩
      · exact ih harg
  | redir mode _ hw ih =>
    intro arg harg
    rcases mem_append.1 harg with harg | harg
    · exact ih arg harg
    · exact ⟨_, mem_singleton.1 harg ▸ hw⟩
  | pipe _ _ ihl ihr | list _ _ ihl ihr => exact fun arg harg => (mem_append.1 harg).elim (ihl arg) (ihr arg)
  | back _ ih => exact ih

theorem Cmd.Matches.imp {R R' : Nat × Nat → Word → Prop} (h : cmd.Matches R tr)
    (himp : ∀ arg ∈ cmd.slices, ∀ w, R arg w → R' arg w) : cmd.Matches R' tr := by
  induction h with
  | exec h =>
    refine .exec ?_
    induction h with
    | nil => exact .nil
    | cons hw _ ih =>
      exact .cons (himp _ mem_cons_self _ hw) (ih fun arg harg => himp arg (mem_cons_of_mem _ harg))
  | redir mode _ hw ih =>
    exact .redir mode (ih fun arg harg => himp arg (mem_append_left _ harg))
      (himp _ (mem_append_right _ mem_cons_self) _ hw)
  | pipe _ _ ihl ihr =>
    exact .pipe (ihl fun arg harg => himp arg (mem_append_left _ harg))
      (ihr fun arg harg => himp arg (mem_append_right _ harg))
  | list _ _ ihl ihr =>
    exact .list (ihl fun arg harg => himp arg (mem_append_left _ harg))
      (ihr fun arg harg => himp arg (mem_append_right _ harg))
  | back _ ih => exact .back (ih himp)

theorem WordAt.getElem? {arg : Nat × Nat} {w : Word} (h : WordAt src arg w) {i : Nat} (hi : i < w.chars.length) :
    src[arg.1 + i]? = some w.chars[i] := by
  obtain ⟨-, ⟨text, hdrop⟩, -⟩ := h
  rw [← getElem?_drop, hdrop, getElem?_append_left hi, getElem?_eq_getElem hi]

/-- No string ends inside a word: the end of a slice is no character of a word. -/
theorem Cmd.Slices.shows (h : cmd.Slices src tr) : cmd.Shows (nulterminate (charAt src) cmd) tr := by
  refine Cmd.Matches.imp h fun arg harg w hw => ⟨fun i hi => ?_, ?_⟩
  · have hplain := w.plain _ (getElem_mem hi)
    refine ⟨?_, hplain.1⟩
    rw [nulterminate_eq, foldl_endString, if_neg]
    · rw [charAt, getD_eq_getElem?_getD, hw.getElem? hi]
      rfl
    · intro hmem
      obtain ⟨arg', harg', hend⟩ := mem_map.1 hmem
      obtain ⟨w', -, -, hstop⟩ := Cmd.Matches.slices h arg' harg'
      have := hstop _ (hend ▸ hw.getElem? hi)
      rw [hplain.2] at this
      cases this
  · rw [nulterminate_eq, foldl_endString, if_pos (mem_map.2 ⟨arg, harg, hw.1⟩)]

/-! ## Printing derives -/

theorem Derives.addRedir {t : Tree} (h : Derives .exec ts t) (r : Redir) :
    Derives .exec (ts ++ r.toks) (t.addRedir r) := by
  cases h with
  | simple items h =>
    have := Derives.simple (items ++ [.redir r]) (by simpa [word?, filterMap_cons] using h)
    simpa [simpleTree, word?, redir?, toks, filterMap_cons] using this
  | block rs h =>
    have := Derives.block (rs ++ [r]) h
    simpa using this

theorem Derives.parens {t : Tree} (h : Derives .line ts t) : Derives .exec (User.parens true ts) t :=
  .block [] h

theorem Derives.line {t : Tree} (h : Derives .pipe ts t) : Derives .line ts t := by
  have := Derives.backs 0 h
  rwa [replicate_zero, append_nil] at this

theorem backs_back (k : Nat) (t : Tree) : (Tree.back t).backs k = .back (t.backs k) := by
  induction k generalizing t with
  | zero => rfl
  | succ k ih => exact ih (.back t)

/-- What printing in a place gives. -/
def PrintsAs : Place → List Tok → Tree → Prop
  | .line, ts, t => Derives .line ts t
  | .back, ts, t => ∃ k ts' t', ts = ts' ++ replicate k .amp ∧ t = t'.backs k ∧ Derives .pipe ts' t'
  | .pipe, ts, t => Derives .pipe ts t
  | .exec, ts, t => Derives .exec ts t

theorem PrintsAs.of_pipe {t : Tree} {p : Place} (h : Derives .pipe ts t) (hp : p ≠ .exec) : PrintsAs p ts t := by
  cases p with
  | line => exact h.line
  | back => exact ⟨0, ts, t, (append_nil _).symm, rfl, h⟩
  | pipe => exact h
  | exec => exact absurd rfl hp

theorem PrintsAs.of_exec {t : Tree} (p : Place) (h : Derives .exec ts t) : PrintsAs p ts t := by
  by_cases hp : p = .exec
  · subst hp
    exact h
  · exact .of_pipe h.single hp

theorem PrintsAs.amp {t : Tree} (h : PrintsAs .back ts t) : PrintsAs .back (ts ++ [.amp]) (.back t) := by
  obtain ⟨k, ts', t', rfl, rfl, h⟩ := h
  exact ⟨k + 1, ts', t', by rw [replicate_succ', append_assoc], (backs_back k t').symm, h⟩

theorem PrintsAs.line {t : Tree} (h : PrintsAs .back ts t) : Derives .line ts t := by
  obtain ⟨k, ts', t', rfl, rfl, h⟩ := h
  exact .backs k h

theorem Tree.print_derives (t : Tree) (ht : t.ArgsFit) (p : Place) : PrintsAs p (t.print p) t := by
  induction t generalizing p with
  | exec args =>
    have hwords : (args.map word).filterMap word? = args := by
      rw [filterMap_map]
      exact filterMap_some
    have hredirs : (args.map word).filterMap redir? = [] := by
      rw [filterMap_map]
      exact filterMap_none args
    have htoks : (args.map word).flatMap toks = args.map Tok.word := by
      rw [flatMap_map]
      exact (map_eq_flatMap).symm
    have hsimple := Derives.simple (args.map .word) (by rw [hwords]; exact ht)
    rw [simpleTree, hwords, hredirs, htoks] at hsimple
    exact .of_exec p hsimple
  | redir cmd mode file ih =>
    refine .of_exec p ?_
    cases mode with
    | read => exact (ih ht .exec).addRedir ⟨.lt, file⟩
    | write => exact (ih ht .exec).addRedir ⟨.gt, file⟩
  | pipe left right ihl ihr =>
    have h := Derives.pipe (ihl ht.1 .exec) (ihr ht.2 .pipe)
    by_cases hp : p = .exec
    · subst hp
      exact h.line.parens
    · simp only [print, hp]
      exact .of_pipe h hp
  | list left right ihl ihr =>
    obtain ⟨k, ts', t', hts, ht', hpipe⟩ := ihl ht.1 .back
    have h := Derives.list k hpipe (ihr ht.2 .line)
    rw [← ht', ← append_assoc, ← hts] at h
    by_cases hp : p = .line
    · subst hp
      exact h
    · simp only [print, hp, ne_eq]
      exact .of_exec p h.parens
  | back cmd ih =>
    have h := (ih ht .back).amp
    cases p with
    | line => exact h.line
    | back => exact h
    | pipe => exact .of_exec .pipe h.line.parens
    | exec => exact h.line.parens

/-! ## The round trip -/

/-- The parser reads every text that shows a derivation of the tree, without a panic; then every string of the tree
is exactly its word.  Printing gives such a derivation for every tree. -/
theorem shellRoundTrip (t : Tree) (ht : t.ArgsFit) :
    Derives .line (t.print .line) t ∧ ∀ (ts : List Tok) (src : List UInt8), Derives .line ts t → Layout ts src →
        ∃ cmd buf, parsecmd src = .ok (cmd, buf) ∧ cmd.Shows buf t := by
  refine ⟨t.print_derives ht .line, fun ts src hd hl => ?_⟩
  have hs : Spells src 0 (ts ++ []) := by
    rw [append_nil]
    exact ⟨Nat.zero_le _, hl⟩
  have hfuel : Level.line.fuel ts ≤ 4 * src.length + 4 := by
    have := layout_length hl
    simp only [Level.fuel]
    omega
  obtain ⟨cmd, s', hrun, hc, hs'⟩ := hd.reads 0 [] _ hs (fun _ h => nomatch h) hfuel
  refine ⟨cmd, _, ?_, hc.shows⟩
  rw [parsecmd, show parseline src _ 0 = _ from hrun]
  dsimp only [bind, Except.bind]
  rw [hs'.peek_eq, hs'.skip_nil]
  exact if_neg (not_not.2 rfl)

/-- `a | (b; c) > f &`. -/
def sampleTree : Tree :=
  .back (.pipe (.exec [.letter 0x61 (by decide)])
    (.redir (.list (.exec [.letter 0x62 (by decide)]) (.exec [.letter 0x63 (by decide)])) .write
      (.letter 0x66 (by decide))))

/-- The line ` a| (b;c)>f &`. -/
theorem shellRoundTrip_sample : sampleTree.ArgsFit ∧ ∃ cmd buf,
      parsecmd ([' ', 'a', '|', ' ', '(', 'b', ';', 'c', ')', '>', 'f', ' ', '&'].map Char.toUInt8) = .ok (cmd, buf) ∧
        cmd.Shows buf sampleTree := by
  have hfit : sampleTree.ArgsFit := by simp [sampleTree, Tree.ArgsFit, maxArgs]
  obtain ⟨hprint, hparse⟩ := shellRoundTrip sampleTree hfit
  refine ⟨hfit, hparse _ _ hprint ?_⟩
  refine ⟨[' '.toUInt8], _, forall_mem_singleton.2 rfl, rfl, by decide, ?_⟩
  refine ⟨[], _, forall_mem_nil _, rfl, by decide, ?_⟩
  refine ⟨[' '.toUInt8], _, forall_mem_singleton.2 rfl, rfl, by decide, ?_⟩
  iterate 6 refine ⟨[], _, forall_mem_nil _, rfl, by decide, ?_⟩
  exact ⟨[' '.toUInt8], [], forall_mem_singleton.2 rfl, rfl, by decide, by simp [Layout]⟩

end InternetOs.User
