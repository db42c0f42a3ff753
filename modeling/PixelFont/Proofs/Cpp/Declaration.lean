import PixelFont.Proofs.Cpp.Token

/-!
Lists of arrays in C++, read from a text. Main statements: `Parses.declared` and `Parses.defined`,
by which an array that is declared or defined below comments is read with these, its name, its
length and the bytes of each literal.
-/

set_option autoImplicit false

namespace PixelFont.Cpp

/-- An array of bytes that a text declares, or defines as the bytes of its literals. -/
structure Declaration where
  /-- The comments between the statement before it and the array. -/
  comment : String
  name : String
  size : Nat
  literals : Option (List (List UInt8)) := none
  deriving DecidableEq, Repr

def Declaration.head (d : Declaration) : Declaration := { d with literals := none }

def externWord : List Char := "extern".toList

def byteType : List Char := "uint8_t".toList

def namespaceWord : List Char := "namespace".toList

/-- A decimal number. A numeral that starts with a zero is in another base. -/
def number? (cs : List Char) : Option Nat :=
  if cs.head? = some '0' then none else Text.natural? 10 cs

def Token.literal? : Token → Option (List UInt8)
  | .literal bytes => some bytes
  | _ => none

def Declaration.ofStatement? (comment : List Char) : List Token → Option Declaration
  | [.word kind, .word type, .word name, .mark '[', .word size, .mark ']'] =>
    if kind = externWord ∧ type = byteType then do
      return { comment := String.ofList comment, name := String.ofList name
               size := ← number? size }
    else none
  | .word type :: .word name :: .mark '[' :: .word size :: .mark ']' :: .mark '=' :: value =>
    if type = byteType ∧ value ≠ [] then do
      return { comment := String.ofList comment, name := String.ofList name
               size := ← number? size, literals := some (← value.mapM Token.literal?) }
    else none
  | _ => none

structure Reader where
  done : List Declaration := []
  comment : List Char := []
  statement : List Token := []
  deriving DecidableEq, Repr

namespace Reader

/-- Takes in a token. Namespaces have no part in what is declared. -/
def next (r : Reader) : Token → Option Reader
  | .comment text => if r.statement = [] then some { r with comment := r.comment ++ text } else none
  | .directive => if r.statement = [] then some { r with comment := [] } else none
  | .mark '\x7b' =>
    if r.statement.head? = some (.word namespaceWord) then some { done := r.done } else none
  | .mark '\x7d' => if r.statement = [] then some { done := r.done } else none
  | .mark ';' => do return { done := r.done ++ [← Declaration.ofStatement? r.comment r.statement] }
  | t => some { r with statement := r.statement ++ [t] }

def run (r : Reader) (ts : List Token) : Option Reader := ts.foldlM next r

theorem run_append (r : Reader) (ts us : List Token) :
    r.run (ts ++ us) = (r.run ts).bind (·.run us) := List.foldlM_append

theorem run_comments (done : List Declaration) (comment : List Char) (texts : List (List Char)) :
    run ⟨done, comment, []⟩ (texts.map .comment) = some ⟨done, comment ++ texts.flatten, []⟩ := by
  induction texts generalizing comment with
  | nil => simp [run]
  | cons text texts ih =>
    rw [List.map_cons, run, List.foldlM_cons]
    change run ⟨done, comment ++ text, []⟩ _ = _
    rw [ih, List.flatten_cons, List.append_assoc]

def Adds (t : Token) : Prop :=
  ∀ r : Reader, r.next t = some { r with statement := r.statement ++ [t] }

theorem adds_word (text : List Char) : Adds (.word text) := fun _ => rfl

theorem adds_literal (bytes : List UInt8) : Adds (.literal bytes) := fun _ => rfl

theorem run_statement {ts : List Token} (h : ∀ t ∈ ts, Adds t) (r : Reader) :
    r.run ts = some { r with statement := r.statement ++ ts } := by
  induction ts generalizing r with
  | nil => simp [run]
  | cons t ts ih =>
    rw [List.forall_mem_cons] at h
    rw [run, List.foldlM_cons, h.1 r]
    change run _ ts = _
    rw [ih h.2]
    simp

theorem run_declaration {ts : List Token} (h : ∀ t ∈ ts, Adds t) {texts : List (List Char)}
    {d : Declaration} (hd : Declaration.ofStatement? texts.flatten ts = some d)
    (done : List Declaration) :
    run { done } (texts.map .comment ++ (ts ++ [.mark ';'])) = some { done := done ++ [d] } := by
  rw [run_append, run_comments, Option.bind_some, run_append, run_statement h]
  simp [run, next, hd]

end Reader

/-- The arrays of a text that ends with a statement, a namespace or a comment. -/
def declarations? (text : String) : Option (List Declaration) := do
  let r ← Reader.run {} (← tokens? text.toList)
  if r.statement = [] then some r.done else none

/-- A text that declares these arrays, wherever it stands between two statements. -/
def Parses (text : List Char) (ds : List Declaration) : Prop :=
  ∃ ts, Lexes text ts ∧ ∀ done, Reader.run { done } ts = some { done := done ++ ds }

namespace Parses

theorem nil : Parses [] [] := ⟨[], .nil, fun done => by simp [Reader.run]⟩

theorem append {text text' : List Char} {ds ds' : List Declaration} (h : Parses text ds)
    (h' : Parses text' ds') : Parses (text ++ text') (ds ++ ds') := by
  obtain ⟨ts, hlex, hread⟩ := h
  obtain ⟨ts', hlex', hread'⟩ := h'
  refine ⟨ts ++ ts', hlex.append hlex', fun done => ?_⟩
  rw [Reader.run_append, hread, Option.bind_some, hread', List.append_assoc]

theorem declarations? {text rest : List Char} {ds : List Declaration} (h : Parses text ds)
    {ts : List Token} (hlex : Lexes rest ts) {comment : List Char}
    (hread : Reader.run { done := ds } ts = some ⟨ds, comment, []⟩) :
    Cpp.declarations? (String.ofList (text ++ rest)) = some ds := by
  obtain ⟨us, hlex', hread'⟩ := h
  have htokens : tokens? (text ++ rest) = some (us ++ ts) := by
    simp [tokens?, hlex'.append hlex []]
  have hrun : Reader.run {} (us ++ ts) = some ⟨ds, comment, []⟩ := by
    simpa [Reader.run_append, hread'] using hread
  simp [Cpp.declarations?, htokens, hrun]

theorem flatMap {α : Type} {as : List α} {text : α → List Char} {ds : α → List Declaration}
    (h : ∀ a ∈ as, Parses (text a) (ds a)) : Parses (as.flatMap text) (as.flatMap ds) := by
  induction as with
  | nil => exact .nil
  | cons a as ih =>
    rw [List.forall_mem_cons] at h
    exact h.1.append (ih h.2)

theorem flatMap_nil {α : Type} {as : List α} {text : α → List Char}
    (h : ∀ a ∈ as, Parses (text a) []) : Parses (as.flatMap text) [] := by
  have hnil : as.flatMap (fun _ => ([] : List Declaration)) = [] := by simp
  exact hnil ▸ flatMap h

end Parses

theorem number?_toDigits {n : Nat} (h : n ≠ 0) : number? (Nat.toDigits 10 n) = some n := by
  rw [number?, if_neg (Text.head?_toDigits h), (Text.isDecimal_toDigits n).natural?]

theorem isWord_toDigits (n : Nat) : IsWord (Nat.toDigits 10 n) where
  ne_nil := Nat.toDigits_ne_nil
  chars c hc := by
    have hdigit := (Text.isDecimal_toDigits n).digits c hc
    simp [isWordChar, Char.isAlphanum, hdigit]

def arrayText (name size : List Char) : List Char :=
  byteType ++ ' ' :: (name ++ '[' :: (size ++ [']']))

def literalLines (bss : List (List UInt8)) : List Char :=
  bss.flatMap fun bs => '\n' :: ' ' :: ' ' :: '"' :: (bs.flatMap escape ++ ['"'])

def arrayTokens (name size : List Char) : List Token :=
  [.word byteType, .word name, .mark '[', .word size, .mark ']']

theorem adds_arrayTokens (name size : List Char) : ∀ t ∈ arrayTokens name size, Reader.Adds t := by
  simp only [arrayTokens, List.forall_mem_cons]
  exact ⟨Reader.adds_word _, Reader.adds_word _, fun _ => rfl, Reader.adds_word _, fun _ => rfl,
    by simp⟩

namespace Declaration

theorem ofStatement?_declared {size : Nat} (h : size ≠ 0) (comment name : List Char) :
    ofStatement? comment (.word externWord :: arrayTokens name (Nat.toDigits 10 size)) =
      some ⟨String.ofList comment, String.ofList name, size, none⟩ := by
  simp [ofStatement?, arrayTokens, number?_toDigits h]

theorem mapM_literal? (bss : List (List UInt8)) :
    (bss.map Token.literal).mapM Token.literal? = some bss := by
  induction bss with
  | nil => rfl
  | cons bs bss ih => simp [Token.literal?, ih]

theorem ofStatement?_defined {size : Nat} (h : size ≠ 0) (comment name : List Char)
    {bss : List (List UInt8)} (hbss : bss ≠ []) :
    ofStatement? comment (arrayTokens name (Nat.toDigits 10 size) ++ .mark '=' ::
        bss.map .literal) =
      some ⟨String.ofList comment, String.ofList name, size, some bss⟩ := by
  simp [ofStatement?, arrayTokens, number?_toDigits h, mapM_literal?, hbss, -List.mapM_map]

end Declaration

namespace Lexer

variable {name size : List Char}

theorem run_array (hname : IsWord name) (hsize : IsWord size) (done : List Token)
    (rest : List Char) :
    run ⟨done, .gap⟩ (arrayText name size ++ rest) =
      run ⟨done ++ arrayTokens name size, .gap⟩ rest := by
  have htype : IsWord byteType := by decide
  simp only [arrayText, List.append_assoc, List.cons_append, List.nil_append]
  rw [run_word htype (by decide), run_blank (.inl rfl), run_word hname (by decide),
    run_mark (by decide), run_word hsize (by decide), run_mark (by decide)]
  simp only [arrayTokens, List.append_assoc, List.cons_append, List.nil_append]

theorem run_literalLines (bss : List (List UInt8)) (done : List Token) (rest : List Char) :
    run ⟨done, .gap⟩ (literalLines bss ++ rest) = run ⟨done ++ bss.map .literal, .gap⟩ rest := by
  induction bss generalizing done with
  | nil => simp [literalLines]
  | cons bs bss ih =>
    have hcons : literalLines (bs :: bss) ++ rest = '\n' :: ' ' :: ' ' :: '"' ::
        (bs.flatMap escape ++ '"' :: (literalLines bss ++ rest)) := by
      simp [literalLines]
    rw [hcons, run_blank (.inr rfl), run_blank (.inl rfl), run_blank (.inl rfl), run_literal, ih]
    simp

theorem next_qualified {c : Char} (hc : isWordChar c = true ∨ c = ':' ∨ c = ' ') {part : Part}
    (hpart : part = .gap ∨ ∃ w, part = .word w) :
    ∃ ts part', (∀ t ∈ ts, Reader.Adds t) ∧ (part' = .gap ∨ ∃ w, part' = .word w) ∧
      (c = ' ' → part' = .gap) ∧ ∀ done, next ⟨done, part⟩ c = some ⟨done ++ ts, part'⟩ := by
  obtain ⟨before, hbefore, hnext⟩ : ∃ before, (∀ t ∈ before, Reader.Adds t) ∧
      (isWordChar c = false ∧ c ≠ '"' →
        ∀ done, next ⟨done, part⟩ c = start (done ++ before) c) := by
    obtain rfl | ⟨w, rfl⟩ := hpart
    · exact ⟨[], by simp, fun _ done => by simp [next]⟩
    · exact ⟨[.word w], by simpa using Reader.adds_word w, fun hno done => by simp [next, hno]⟩
  obtain hc | rfl | rfl := hc
  · have hblank : c ≠ ' ' := by
      rintro rfl
      exact absurd hc (by decide)
    obtain rfl | ⟨w, rfl⟩ := hpart
    · exact ⟨[], .word [c], by simp, .inr ⟨_, rfl⟩, fun h => absurd h hblank,
        fun done => by simp [next, start, hc]⟩
    · exact ⟨[], .word (w ++ [c]), by simp, .inr ⟨_, rfl⟩, fun h => absurd h hblank,
        fun done => by simp [next, hc]⟩
  · refine ⟨before ++ [.mark ':'], .gap, ?_, .inl rfl, fun _ => rfl, fun done => ?_⟩
    · rw [List.forall_mem_append]
      exact ⟨hbefore, List.forall_mem_singleton.mpr fun _ => rfl⟩
    · rw [hnext (by decide), ← List.append_assoc]
      rfl
  · refine ⟨before, .gap, hbefore, .inl rfl, fun _ => rfl, fun done => ?_⟩
    rw [hnext (by decide)]
    rfl

theorem run_qualified {name : List Char} (h : ∀ c ∈ name, isWordChar c = true ∨ c = ':')
    {part : Part} (hpart : part = .gap ∨ ∃ w, part = .word w) :
    ∃ ts, (∀ t ∈ ts, Reader.Adds t) ∧
      ∀ done, run ⟨done, part⟩ (name ++ [' ']) = some ⟨done ++ ts, .gap⟩ := by
  induction name generalizing part with
  | nil =>
    obtain ⟨ts, part', hts, -, hgap, hnext⟩ := next_qualified (.inr (.inr rfl)) hpart
    obtain rfl := hgap rfl
    exact ⟨ts, hts, fun done => by simp [run, hnext]⟩
  | cons c name ih =>
    rw [List.forall_mem_cons] at h
    obtain ⟨ts, part', hts, hpart', -, hnext⟩ := next_qualified (h.1.imp_right .inl) hpart
    obtain ⟨us, hus, hrun⟩ := ih h.2 hpart'
    refine ⟨ts ++ us, List.forall_mem_append.mpr ⟨hts, hus⟩, fun done => ?_⟩
    rw [List.cons_append, run_cons, hnext, Option.bind_some, hrun, List.append_assoc]

end Lexer

namespace Parses

variable {comment name : List Char} {size : Nat}

theorem declared (hcomment : IsComment comment) (hname : IsWord name) (hsize : size ≠ 0) :
    Parses ('\n' :: (comment ++ (externWord ++ ' ' ::
        (arrayText name (Nat.toDigits 10 size) ++ [';', '\n']))))
      [⟨String.ofList comment, String.ofList name, size, none⟩] := by
  obtain ⟨texts, rfl, hlex⟩ := hcomment
  have hkind : IsWord externWord := by decide
  refine ⟨texts.map .comment ++ (.word externWord :: arrayTokens name (Nat.toDigits 10 size) ++
    [.mark ';']), fun done => ?_, ?_⟩
  · rw [Lexer.run_blank (.inr rfl), Lexer.run_append, hlex, Option.bind_some,
      Lexer.run_word hkind (by decide), Lexer.run_blank (.inl rfl),
      Lexer.run_array hname (isWord_toDigits size), Lexer.run_mark (by decide),
      Lexer.run_blank (.inr rfl)]
    simp [Lexer.run]
  · exact Reader.run_declaration
      (List.forall_mem_cons.mpr ⟨Reader.adds_word _, adds_arrayTokens _ _⟩)
      (Declaration.ofStatement?_declared hsize _ _)

theorem defined (hcomment : IsComment comment) (hname : IsWord name) (hsize : size ≠ 0)
    {bss : List (List UInt8)} (hbss : bss ≠ []) :
    Parses ('\n' :: (comment ++ (arrayText name (Nat.toDigits 10 size) ++ ' ' :: '=' ::
        (literalLines bss ++ [';', '\n']))))
      [⟨String.ofList comment, String.ofList name, size, some bss⟩] := by
  obtain ⟨texts, rfl, hlex⟩ := hcomment
  refine ⟨texts.map .comment ++ (arrayTokens name (Nat.toDigits 10 size) ++ .mark '=' ::
    bss.map .literal ++ [.mark ';']), fun done => ?_, ?_⟩
  · rw [Lexer.run_blank (.inr rfl), Lexer.run_append, hlex, Option.bind_some,
      Lexer.run_array hname (isWord_toDigits size), Lexer.run_blank (.inl rfl),
      Lexer.run_mark (by decide), Lexer.run_literalLines, Lexer.run_mark (by decide),
      Lexer.run_blank (.inr rfl)]
    simp [Lexer.run]
  · refine Reader.run_declaration ?_ (Declaration.ofStatement?_defined hsize _ _ hbss)
    rw [List.forall_mem_append, List.forall_mem_cons, List.forall_mem_map]
    exact ⟨adds_arrayTokens _ _, fun _ => rfl, fun bs _ => Reader.adds_literal bs⟩

theorem blank : Parses ['\n'] [] := ⟨[], .blank, fun done => by simp [Reader.run]⟩

theorem directive {texts : List (List Char)} {above line : List Char}
    (habove : Lexes above (texts.map .comment)) (hline : Lexes line [.directive]) :
    Parses (above ++ line) [] := by
  refine ⟨texts.map .comment ++ [.directive], habove.append hline, fun done => ?_⟩
  rw [Reader.run_append, Reader.run_comments, List.append_nil]
  rfl

theorem ofDirective {line : List Char} (h : Lexes line [.directive]) : Parses line [] :=
  @directive [] [] line .nil h

theorem namespaceStart {scope : List Char} (h : ∀ c ∈ scope, isWordChar c = true ∨ c = ':') :
    Parses (namespaceWord ++ ' ' :: (scope ++ [' ', '\x7b', '\n'])) [] := by
  have hword : IsWord namespaceWord := by decide
  obtain ⟨ts, hts, hrun⟩ := Lexer.run_qualified h (.inl rfl)
  refine ⟨.word namespaceWord :: ts ++ [.mark '\x7b'], fun done => ?_, fun done => ?_⟩
  · rw [Lexer.run_word hword (by decide), Lexer.run_blank (.inl rfl)]
    have hscope : scope ++ [' ', '\x7b', '\n'] = scope ++ [' '] ++ ['\x7b', '\n'] := by simp
    rw [hscope, Lexer.run_append, hrun, Option.bind_some, Lexer.run_mark (by decide),
      Lexer.run_blank (.inr rfl)]
    simp [Lexer.run]
  · have hadds : ∀ t ∈ Token.word namespaceWord :: ts, Reader.Adds t :=
      List.forall_mem_cons.mpr ⟨Reader.adds_word _, hts⟩
    rw [Reader.run_append, Reader.run_statement hadds]
    simp [Reader.run, Reader.next]

end Parses

end PixelFont.Cpp
