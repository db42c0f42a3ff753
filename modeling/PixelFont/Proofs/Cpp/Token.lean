import PixelFont.Proofs.Hex

/-!
The tokens of a text in C++, as far as a list of arrays needs them. Main statements:
`isComment_lines`, by which lines of comment are read whole even if a backslash joins two of them,
and `Lexer.run_literal`, by which a literal is read as the bytes that it escapes.
-/

set_option autoImplicit false

namespace PixelFont.Cpp

inductive Token where
  /-- From its slashes to the line feed that ends it. -/
  | comment (text : List Char)
  | directive
  | word (text : List Char)
  | literal (bytes : List UInt8)
  | mark (c : Char)
  deriving DecidableEq, Repr

inductive Part where
  | gap
  | slash
  | comment (text : List Char)
  | directive (quoted : Bool)
  | word (text : List Char)
  | literal (bytes : List UInt8)
  | backslash (bytes : List UInt8)
  | escape (bytes : List UInt8) (digits : List Char)
  deriving DecidableEq, Repr

structure Lexer where
  done : List Token := []
  part : Part := .gap
  deriving DecidableEq, Repr

def isWordChar (c : Char) : Bool := c.isAlphanum || c = '_'

@[mk_iff] structure IsWord (cs : List Char) : Prop where
  ne_nil : cs ≠ []
  chars : ∀ c ∈ cs, isWordChar c = true

instance (cs : List Char) : Decidable (IsWord cs) :=
  decidable_of_iff (cs ≠ [] ∧ cs.all isWordChar = true) (by rw [isWord_iff, List.all_eq_true])

theorem IsWord.notMem {cs : List Char} (h : IsWord cs) {c : Char} (hc : isWordChar c = false) :
    c ∉ cs := fun hmem => Bool.false_ne_true (hc.symm.trans (h.chars c hmem))

def escape (b : UInt8) : List Char := '\\' :: 'x' :: Hex.pair b

def marks : List Char := ['[', ']', '=', ';', ':', '\x7b', '\x7d']

namespace Lexer

def start (done : List Token) (c : Char) : Option Lexer :=
  if isWordChar c then some ⟨done, .word [c]⟩
  else if c = ' ' ∨ c = '\n' then some ⟨done, .gap⟩
  else if c ∈ marks then some ⟨done ++ [.mark c], .gap⟩
  else if c = '/' then some ⟨done, .slash⟩
  else if c = '"' then some ⟨done, .literal []⟩
  else if c = '#' then some ⟨done, .directive false⟩
  else none

def addToLiteral (done : List Token) (bytes : List UInt8) (c : Char) : Option Lexer :=
  if c = '"' then some ⟨done ++ [.literal bytes], .gap⟩
  else if c = '\\' then some ⟨done, .backslash bytes⟩
  else if c = '\n' ∨ 0x80 ≤ c.toNat then none
  else some ⟨done, .literal (bytes ++ [UInt8.ofNat c.toNat])⟩

/-- Takes in a character. A comment goes on after a line feed that a backslash precedes, and an
escape takes every hexadecimal digit that follows. What is not needed for arrays is refused:
literals with a word before them, other escapes, and comments or joined lines in a directive. -/
def next (k : Lexer) (c : Char) : Option Lexer :=
  match k.part with
  | .gap => start k.done c
  | .slash => if c = '/' then some ⟨k.done, .comment ['/', '/']⟩ else none
  | .comment text =>
    if c = '\n' ∧ text.getLast? ≠ some '\\' then some ⟨k.done ++ [.comment (text ++ [c])], .gap⟩
    else some ⟨k.done, .comment (text ++ [c])⟩
  | .directive quoted =>
    if c = '\n' then if quoted then none else some ⟨k.done ++ [.directive], .gap⟩
    else if c = '"' then some ⟨k.done, .directive !quoted⟩
    else if !quoted ∧ (c = '/' ∨ c = '\\') then none
    else some ⟨k.done, .directive quoted⟩
  | .word text =>
    if isWordChar c then some ⟨k.done, .word (text ++ [c])⟩
    else if c = '"' then none
    else start (k.done ++ [.word text]) c
  | .literal bytes => addToLiteral k.done bytes c
  | .backslash bytes => if c = 'x' then some ⟨k.done, .escape bytes []⟩ else none
  | .escape bytes digits =>
    if (Text.digit? 16 c).isSome then some ⟨k.done, .escape bytes (digits ++ [c])⟩
    else do
      let n ← Text.natural? 16 digits
      let byte ← toUInt8? n
      addToLiteral k.done (bytes ++ [byte]) c

def run (k : Lexer) (cs : List Char) : Option Lexer := cs.foldlM next k

end Lexer

def tokens? (text : List Char) : Option (List Token) := do
  let k ← Lexer.run {} text
  if k.part = .gap then some k.done else none

namespace Lexer

theorem run_cons (k : Lexer) (c : Char) (cs : List Char) :
    k.run (c :: cs) = (k.next c).bind (·.run cs) := List.foldlM_cons

theorem run_append (k : Lexer) (as bs : List Char) :
    k.run (as ++ bs) = (k.run as).bind (·.run bs) := List.foldlM_append

variable {done : List Token} {cs rest : List Char}

theorem run_blank {c : Char} (h : c = ' ' ∨ c = '\n') (rest : List Char) :
    run ⟨done, .gap⟩ (c :: rest) = run ⟨done, .gap⟩ rest := by
  rcases h with rfl | rfl <;> rfl

theorem run_mark {c : Char} (h : c ∈ marks) (rest : List Char) :
    run ⟨done, .gap⟩ (c :: rest) = run ⟨done ++ [.mark c], .gap⟩ rest := by
  have hall : (marks.all fun c => !isWordChar c && c ≠ ' ' && c ≠ '\n') = true := by decide
  have hc : (isWordChar c = false ∧ c ≠ ' ') ∧ c ≠ '\n' := by
    simpa using List.all_eq_true.mp hall c h
  simp [run_cons, next, start, hc, h]

theorem run_inWord {text : List Char} (h : ∀ c ∈ cs, isWordChar c = true) :
    run ⟨done, .word text⟩ cs = some ⟨done, .word (text ++ cs)⟩ := by
  induction cs generalizing text with
  | nil => simp [run]
  | cons c cs ih =>
    rw [List.forall_mem_cons] at h
    rw [run_cons, next]
    simp [h.1, ih h.2]

theorem run_word {word : List Char} {c : Char} (h : IsWord word)
    (hc : isWordChar c = false ∧ c ≠ '"') (rest : List Char) :
    run ⟨done, .gap⟩ (word ++ c :: rest) = run ⟨done ++ [.word word], .gap⟩ (c :: rest) := by
  obtain ⟨hne, hw⟩ := h
  obtain ⟨first, word, rfl⟩ := List.exists_cons_of_ne_nil hne
  rw [List.forall_mem_cons] at hw
  have hstart : next ⟨done, .gap⟩ first = some ⟨done, .word [first]⟩ := by simp [next, start, hw.1]
  rw [List.cons_append, run_cons, hstart, Option.bind_some, run_append, run_inWord hw.2,
    Option.bind_some, run_cons, run_cons]
  simp [next, hc]

theorem run_inComment {text : List Char} (h : '\n' ∉ cs) :
    run ⟨done, .comment text⟩ cs = some ⟨done, .comment (text ++ cs)⟩ := by
  induction cs generalizing text with
  | nil => simp [run]
  | cons c cs ih =>
    rw [List.mem_cons, not_or] at h
    rw [run_cons, next]
    simp [Ne.symm h.1, ih h.2]

/-- A text of comments only, the last of which may be open. They are independent of the tokens
before them, and together they are the text. -/
def Commented (text : List Char) (part : Part) : Prop :=
  ∃ texts : List (List Char),
    (∀ done, run ⟨done, .gap⟩ text = some ⟨done ++ texts.map .comment, part⟩) ∧
    (part = .gap ∧ texts.flatten = text ∨
      ∃ last, part = .comment last ∧ last.getLast? = some '\n' ∧ texts.flatten ++ last = text)

theorem Commented.nil : Commented [] .gap := ⟨[], fun _ => by simp [run], .inl ⟨rfl, rfl⟩⟩

/-- A line that starts with two slashes is part of a comment, whether it starts one or goes on with
one. -/
theorem Commented.line {text line : List Char} {part : Part} (h : Commented text part)
    (hl : '\n' ∉ line) :
    ∃ part', Commented (text ++ ('/' :: '/' :: line ++ ['\n'])) part' ∧
      (('/' :: line).getLast? ≠ some '\\' → part' = .gap) := by
  obtain ⟨texts, hrun, hpart⟩ := h
  obtain ⟨before, hopen, htext⟩ : ∃ before,
      (∀ done, run ⟨done, part⟩ ('/' :: '/' :: line) =
        some ⟨done, .comment (before ++ '/' :: '/' :: line)⟩) ∧
      texts.flatten ++ before = text := by
    obtain ⟨rfl, htext⟩ | ⟨last, rfl, -, htext⟩ := hpart
    · exact ⟨[], fun _ => run_inComment hl, by simpa using htext⟩
    · exact ⟨last, fun _ => run_inComment (by simp [hl]), htext⟩
  have hlast : (before ++ '/' :: '/' :: line).getLast? = ('/' :: line).getLast? := by
    simp [List.getLast?_cons]
  have hnext (done : List Token) :
      run ⟨done, .gap⟩ (text ++ ('/' :: '/' :: line ++ ['\n'])) =
        next ⟨done ++ texts.map .comment, .comment (before ++ '/' :: '/' :: line)⟩ '\n' := by
    rw [run_append, hrun, Option.bind_some, run_append, hopen, Option.bind_some, run_cons]
    exact Option.bind_fun_some _
  by_cases hsplice : ('/' :: line).getLast? = some '\\'
  · refine ⟨.comment (before ++ '/' :: '/' :: line ++ ['\n']), ⟨texts, fun done => ?_, .inr ?_⟩,
      fun h => absurd hsplice h⟩
    · rw [hnext, next]
      simp [hlast, hsplice]
    · exact ⟨_, rfl, List.getLast?_concat, by simp [← htext]⟩
  · refine ⟨.gap, ⟨texts ++ [before ++ '/' :: '/' :: line ++ ['\n']], fun done => ?_, .inl ?_⟩,
      fun _ => rfl⟩
    · rw [hnext, next]
      simp [hlast, hsplice]
    · exact ⟨rfl, by simp [← htext]⟩

theorem Commented.lines {text : List Char} {part : Part} (h : Commented text part)
    {ls : List (List Char)} (hls : ∀ l ∈ ls, '\n' ∉ l) :
    ∃ part', Commented (text ++ ls.flatMap fun l => '/' :: '/' :: l ++ ['\n']) part' := by
  induction ls generalizing text part with
  | nil => exact ⟨part, by simpa using h⟩
  | cons l ls ih =>
    rw [List.forall_mem_cons] at hls
    obtain ⟨next, hnext, -⟩ := h.line hls.1
    rw [List.flatMap_cons, ← List.append_assoc]
    exact ih hnext hls.2

theorem Commented.blank {text : List Char} {part : Part} (h : Commented text part) :
    ∃ texts : List (List Char), ∀ done,
      run ⟨done, .gap⟩ (text ++ ['\n']) = some ⟨done ++ texts.map .comment, .gap⟩ := by
  obtain ⟨texts, hrun, ⟨rfl, -⟩ | ⟨last, rfl, hlast, -⟩⟩ := h
  · exact ⟨texts, fun done => by rw [run_append, hrun]; rfl⟩
  · refine ⟨texts ++ [last ++ ['\n']], fun done => ?_⟩
    rw [run_append, hrun, Option.bind_some, run_cons, next]
    simp [hlast, run]

def isPlain (c : Char) : Bool := c ∉ ['\n', '"', '/', '\\']

theorem run_inDirective (h : ∀ c ∈ cs, isPlain c = true) :
    run ⟨done, .directive false⟩ cs = some ⟨done, .directive false⟩ := by
  induction cs with
  | nil => rfl
  | cons c cs ih =>
    rw [List.forall_mem_cons] at h
    have hc : c ≠ '\n' ∧ c ≠ '"' ∧ c ≠ '/' ∧ c ≠ '\\' := by simpa [isPlain] using h.1
    rw [run_cons, next]
    simp [hc, ih h.2]

theorem run_inQuotes (h : ∀ c ∈ cs, c ≠ '\n' ∧ c ≠ '"') :
    run ⟨done, .directive true⟩ cs = some ⟨done, .directive true⟩ := by
  induction cs with
  | nil => rfl
  | cons c cs ih =>
    rw [List.forall_mem_cons] at h
    rw [run_cons, next]
    simp [h.1, ih h.2]

end Lexer

/-- A text whose tokens these are, wherever it stands between two others. -/
def Lexes (text : List Char) (ts : List Token) : Prop :=
  ∀ done, Lexer.run ⟨done, .gap⟩ text = some ⟨done ++ ts, .gap⟩

namespace Lexes

theorem nil : Lexes [] [] := fun done => by simp [Lexer.run]

theorem blank : Lexes ['\n'] [] := fun done => by
  rw [Lexer.run_blank (.inr rfl), List.append_nil]
  rfl

theorem append {text text' : List Char} {ts ts' : List Token} (h : Lexes text ts)
    (h' : Lexes text' ts') : Lexes (text ++ text') (ts ++ ts') := fun done => by
  rw [Lexer.run_append, h, Option.bind_some, h', List.append_assoc]

theorem directive {cs : List Char} (h : ∀ c ∈ cs, Lexer.isPlain c = true) :
    Lexes ('#' :: cs ++ ['\n']) [.directive] := fun done => by
  rw [List.cons_append, Lexer.run_cons]
  change Lexer.run ⟨done, .directive false⟩ _ = _
  rw [Lexer.run_append, Lexer.run_inDirective h]
  rfl

theorem quoted {cs name : List Char} (h : ∀ c ∈ cs, Lexer.isPlain c = true)
    (hname : ∀ c ∈ name, c ≠ '\n' ∧ c ≠ '"') :
    Lexes ('#' :: cs ++ '"' :: (name ++ ['"', '\n'])) [.directive] := fun done => by
  rw [List.cons_append, Lexer.run_cons]
  change Lexer.run ⟨done, .directive false⟩ _ = _
  rw [Lexer.run_append, Lexer.run_inDirective h, Option.bind_some, Lexer.run_cons]
  change Lexer.run ⟨done, .directive true⟩ _ = _
  rw [Lexer.run_append, Lexer.run_inQuotes hname]
  rfl

end Lexes

def IsComment (text : List Char) : Prop :=
  ∃ texts : List (List Char), texts.flatten = text ∧ Lexes text (texts.map .comment)

/-- A comment does not go on after its last line, unless that line ends in a backslash. -/
theorem isComment_lines {ls : List (List Char)} {last : List Char}
    (hls : ∀ l ∈ ls ++ [last], '\n' ∉ l) (hlast : ('/' :: last).getLast? ≠ some '\\') :
    IsComment ((ls ++ [last]).flatMap fun l => '/' :: '/' :: l ++ ['\n']) := by
  rw [List.forall_mem_append, List.forall_mem_singleton] at hls
  obtain ⟨part, hopen⟩ := Lexer.Commented.nil.lines hls.1
  obtain ⟨_, ⟨texts, hrun, hpart⟩, hgap⟩ := hopen.line hls.2
  obtain rfl := hgap hlast
  obtain ⟨-, htext⟩ | ⟨_, hno, -, -⟩ := hpart
  · exact ⟨texts, by simp [htext], by simpa [Lexes] using hrun⟩
  · cases hno

namespace Lexer

variable {done : List Token} {bytes : List UInt8}

theorem natural?_pair (b : UInt8) : Text.natural? 16 (Hex.pair b) = some b.toNat := by
  have h := Hex.natural?_digits (List.cons_ne_nil b [])
  simpa [Hex.digits, ofBigEndian] using h

theorem run_escape (b : UInt8) {c : Char} (hc : Text.digit? 16 c = none) (rest : List Char) :
    run ⟨done, .literal bytes⟩ (escape b ++ c :: rest) =
      run ⟨done, .literal (bytes ++ [b])⟩ (c :: rest) := by
  have hb := b.toNat_lt
  have hopen : run ⟨done, .literal bytes⟩ (escape b) =
      some ⟨done, .escape bytes (Hex.pair b)⟩ := by
    have hdigit (d : Nat) (hd : d < 16) : (Text.digit? 16 (Nat.digitChar d)).isSome = true := by
      rw [Text.digit?_digitChar hd, Option.isSome_some]
    have hhigh := hdigit (b.toNat / 16) (by omega)
    have hlow := hdigit (b.toNat % 16) (by omega)
    change run ⟨done, .escape bytes []⟩ (Hex.pair b) = _
    simp [run, next, Hex.pair, hhigh, hlow]
  have hbyte : toUInt8? b.toNat = some b := by
    simp [toUInt8?]
    omega
  have hnext : next ⟨done, .escape bytes (Hex.pair b)⟩ c =
      next ⟨done, .literal (bytes ++ [b])⟩ c := by
    simp [next, hc, natural?_pair, hbyte]
  rw [run_append, hopen, Option.bind_some, run_cons, run_cons, hnext]

theorem run_escapes (bs : List UInt8) {c : Char} (hc : Text.digit? 16 c = none)
    (rest : List Char) :
    run ⟨done, .literal bytes⟩ (bs.flatMap escape ++ c :: rest) =
      run ⟨done, .literal (bytes ++ bs)⟩ (c :: rest) := by
  induction bs generalizing bytes with
  | nil => simp
  | cons b bs ih =>
    -- The next escape starts with a backslash, which is not a digit either.
    obtain ⟨c', rest', htail, hc'⟩ : ∃ c' rest',
        bs.flatMap escape ++ c :: rest = c' :: rest' ∧ Text.digit? 16 c' = none := by
      cases bs with
      | nil => exact ⟨c, rest, rfl, hc⟩
      | cons b bs => exact ⟨_, _, rfl, by decide⟩
    rw [List.flatMap_cons, List.append_assoc, htail, run_escape b hc', ← htail, ih]
    simp

theorem run_literal (bs : List UInt8) (rest : List Char) :
    run ⟨done, .gap⟩ ('"' :: (bs.flatMap escape ++ '"' :: rest)) =
      run ⟨done ++ [.literal bs], .gap⟩ rest := by
  rw [run_cons]
  change run ⟨done, .literal []⟩ _ = _
  rw [run_escapes bs (by decide), run_cons]
  rfl

end Lexer

example : tokens? "\"\\x41\\x42\" \"\\x43\"".toList =
    some [.literal [0x41, 0x42], .literal [0x43]] := by decide

/-- An escape takes a third digit too, and then it is not one of a byte. -/
example : tokens? "\"\\x412\"".toList = none := by decide

end PixelFont.Cpp
