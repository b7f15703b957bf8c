import Mathlib.Data.List.DropRight
import LiveItems.Toml.Document
import LiveItems.Proofs.Toml.Numerals
set_option autoImplicit false

namespace LiveItems.Toml

structure Trailer where
  blanks : List Char := []
  comment : Option (List Char) := none
  blank : blanks.all isBlank = true := by rfl
  text : comment.all (·.all isText) = true := by rfl

def Trailer.chars (e : Trailer) : List Char := e.blanks ++ e.comment.elim [] ('#' :: ·)

/-- A bare key and an integer of 64 bits, with the blanks around them. -/
structure Pair where
  key : String
  literal : List Char
  value : Int
  indent : List Char := []
  before : List Char := [' ']
  after : List Char := [' ']
  nonempty : key.toList ≠ []
  bare : key.toList.all isBareKey = true
  writes : Writes literal value
  word : -2 ^ 63 ≤ value ∧ value < 2 ^ 63
  indented : indent.all isBlank = true := by rfl
  spaced : (before.all isBlank && after.all isBlank) = true := by rfl

def Pair.chars (p : Pair) : List Char :=
  p.indent ++ (p.key.toList ++ (p.before ++ '=' :: (p.after ++ p.literal)))

def Pair.entry (p : Pair) : String × Node := (p.key, .scalar (.integer p.value))

structure Line where
  pair : Option Pair := none
  trailer : Trailer := {}

def Line.chars (l : Line) : List Char := l.pair.elim [] Pair.chars ++ l.trailer.chars

inductive Break where
  | lf
  | crlf

def Break.chars : Break → List Char
  | lf => ['\n']
  | crlf => ['\r', '\n']

def bodyChars (lines : List (Line × Break)) (last : Line) : List Char :=
  lines.flatMap (fun (l, b) => l.chars ++ b.chars) ++ last.chars

def bodyPairs (lines : List (Line × Break)) (last : Line) : List Pair :=
  lines.flatMap (·.1.pair.toList) ++ last.pair.toList

/-- A document without tables. A byte order mark may come first. -/
structure FlatDocument where
  mark : Bool := false
  lines : List (Line × Break)
  last : Line := {}

namespace FlatDocument

def chars (doc : FlatDocument) : List Char :=
  if doc.mark then '\uFEFF' :: bodyChars doc.lines doc.last else bodyChars doc.lines doc.last

def text (doc : FlatDocument) : String := String.ofList doc.chars

def pairs (doc : FlatDocument) : List Pair := bodyPairs doc.lines doc.last

end FlatDocument

/-- What is left of a text when a line break is read; the end of the text needs none. -/
inductive Breaks : List Char → List Char → Prop where
  | line (b : Break) (rest : List Char) : Breaks (b.chars ++ rest) rest
  | done : Breaks [] []

variable {cs rest : List Char}

theorem Breaks.stops (breaks : Breaks cs rest) {p : Char → Bool}
    (p_lf : p '\n' = false) (p_cr : p '\r' = false) : Stops p cs := by
  cases breaks with
  | done => exact fun c hc => absurd hc (by simp)
  | line b rest =>
    cases b with
    | lf => exact stops_cons p_lf
    | crlf => exact stops_cons p_cr

theorem afterLine?_trailer (e : Trailer) (breaks : Breaks cs rest) :
    afterLine? (e.chars ++ cs) = some rest := by
  obtain ⟨blanks, comment, blank, text⟩ := e
  cases comment with
  | none =>
    have trimmed : (blanks ++ [] ++ cs).dropWhile isBlank = cs := by
      rw [List.append_nil]
      exact dropWhile_append blank (breaks.stops rfl rfl)
    simp only [afterLine?, Trailer.chars, Option.elim_none, trimmed]
    cases breaks with
    | done => rfl
    | line b rest => cases b <;> rfl
  | some comment =>
    have trimmed : (blanks ++ '#' :: comment ++ cs).dropWhile isBlank = '#' :: (comment ++ cs) := by
      rw [List.append_assoc]
      exact dropWhile_append blank (stops_cons rfl)
    have skipped : (comment ++ cs).dropWhile isText = cs :=
      dropWhile_append text (breaks.stops rfl rfl)
    simp only [afterLine?, Trailer.chars, Option.elim_some, trimmed, skipped]
    cases breaks with
    | done => rfl
    | line b rest => cases b <;> rfl

/-- Blanks are spaces and tabs, so what excludes the two excludes all. -/
theorem not_of_isBlank {p : Char → Bool} (space : p ' ' = false) (tab : p '\t' = false) {c : Char}
    (blank : isBlank c = true) : p c = false := by
  rw [isBlank, Bool.or_eq_true, beq_iff_eq, beq_iff_eq] at blank
  rcases blank with rfl | rfl
  · exact space
  · exact tab

theorem isBlank_eq_false {p : Char → Bool} (space : p ' ' = false) (tab : p '\t' = false) {c : Char}
    (holds : p c = true) : isBlank c = false := by
  cases blank : isBlank c with
  | false => rfl
  | true => exact absurd ((not_of_isBlank space tab blank).symm.trans holds) (by decide)

theorem stops_blanks {p : Char → Bool} {blanks : List Char} (blank : blanks.all isBlank = true)
    (space : p ' ' = false) (tab : p '\t' = false) (stops : Stops p rest) :
    Stops p (blanks ++ rest) := by
  cases blanks with
  | nil => exact stops
  | cons b blanks =>
    exact stops_cons (not_of_isBlank space tab (List.all_eq_true.1 blank b List.mem_cons_self))

/-- A line has a token before its trailer at most. -/
theorem Trailer.stops (e : Trailer) (breaks : Breaks cs rest) : Stops isToken (e.chars ++ cs) := by
  obtain ⟨blanks, comment, blank, text⟩ := e
  rw [Trailer.chars, List.append_assoc]
  refine stops_blanks blank rfl rfl ?_
  cases comment with
  | some comment => exact stops_cons rfl
  | none => exact breaks.stops rfl rfl

variable {d : Draft} {p : Pair}

theorem isBareKey_cases {c : Char} (bare : isBareKey c = true) :
    isBlank c = false ∧ c ≠ '[' ∧ c ≠ '"' ∧ c ≠ '\'' ∧ c ≠ '#' ∧ c ≠ '\n' ∧ c ≠ '\r' := by
  refine ⟨isBlank_eq_false rfl rfl bare, ?_, ?_, ?_, ?_, ?_, ?_⟩
  all_goals
    rintro rfl
    exact absurd bare (by decide)

theorem Pair.blank_before (p : Pair) : p.before.all isBlank = true :=
  (Bool.and_eq_true_iff.1 p.spaced).1

theorem Pair.blank_after (p : Pair) : p.after.all isBlank = true :=
  (Bool.and_eq_true_iff.1 p.spaced).2

theorem Pair.key_eq_cons (p : Pair) :
    ∃ c name, p.key.toList = c :: name ∧ isBareKey c = true := by
  cases same : p.key.toList with
  | nil => exact absurd same p.nonempty
  | cons c name => exact ⟨c, name, rfl, List.all_eq_true.1 p.bare c (same ▸ List.mem_cons_self)⟩

theorem readKeyPart_bare (p : Pair) (stops : Stops isBareKey rest) :
    readKeyPart (p.key.toList ++ rest) = some (p.key, rest) := by
  obtain ⟨c, name, key, bare⟩ := p.key_eq_cons
  obtain ⟨-, -, quote, apostrophe, -⟩ := isBareKey_cases bare
  unfold readKeyPart
  split
  · rename_i same
    rw [key] at same
    exact absurd (List.cons.inj same).1 quote
  · rename_i same
    rw [key] at same
    exact absurd (List.cons.inj same).1 apostrophe
  · have nonempty : p.key.toList.isEmpty = false := by rw [key]; rfl
    simp only [takeWhile_append p.bare stops, dropWhile_append p.bare stops, nonempty,
      String.ofList_toList]
    rfl

/-- The key is read up to the sign of equality. -/
theorem readKey_bare (p : Pair) (room : Nat) (rest : List Char) :
    readKey (room + 1) (p.key.toList ++ (p.before ++ '=' :: rest)) =
      some (⟨[], p.key⟩, '=' :: rest) := by
  obtain ⟨c, name, key, bare⟩ := p.key_eq_cons
  have trimmed : (p.key.toList ++ (p.before ++ '=' :: rest)).dropWhile isBlank =
      p.key.toList ++ (p.before ++ '=' :: rest) := by
    rw [key, List.cons_append, List.dropWhile_cons_of_neg (by simp [(isBareKey_cases bare).1])]
  have stops : Stops isBareKey (p.before ++ '=' :: rest) := by
    exact stops_blanks p.blank_before rfl rfl (stops_cons rfl)
  have equals : (p.before ++ '=' :: rest).dropWhile isBlank = '=' :: rest :=
    dropWhile_append p.blank_before (stops_cons rfl)
  rw [readKey, trimmed, readKeyPart_bare p stops]
  simp only [Option.bind_eq_bind, Option.bind_some, equals]
  rfl

theorem readValue_integer {literal : List Char} {n : Int} (writes : Writes literal n)
    (word : -2 ^ 63 ≤ n ∧ n < 2 ^ 63) (stops : Stops isToken rest) (room : Nat) :
    readValue room (literal ++ rest) = some (.scalar (.integer n), rest) := by
  obtain ⟨c, more, rfl, begins⟩ := writes.numeric.begins
  -- a numeral begins with no bracket and no quote
  have other : ∀ d : Char, d.isDigit = false ∧ d ≠ '+' ∧ d ≠ '-' → c ≠ d := by
    rintro d differs rfl
    exact writes.numeric.ne_word more differs rfl
  unfold readValue
  split
  · rename_i same
    exact absurd (List.cons.inj same).1 (other '[' (by decide))
  · rename_i same
    exact absurd (List.cons.inj same).1 (other '\x7b' (by decide))
  · rename_i same
    exact absurd (List.cons.inj same).1 (other '"' (by decide))
  · rename_i same
    exact absurd (List.cons.inj same).1 (other '\'' (by decide))
  · rw [readToken_of_writes writes word stops]
    rfl

theorem afterLine?_bare {c : Char} (bare : isBareKey c = true) (rest : List Char) :
    afterLine? (c :: rest) = none := by
  obtain ⟨visible, -, -, -, comment, lf, cr⟩ := isBareKey_cases bare
  simp [afterLine?, visible, afterNewline?, comment, lf, cr]

theorem Draft.addPair?_fresh (top : d.current = []) {key : String}
    (fresh : d.root.lookup key = none) (n : Node) :
    d.addPair? ⟨[], key⟩ n = some { d with root := d.root ++ [(key, n)] } := by
  rw [Draft.addPair?, top]
  simp [Entries.alterAt?, Entries.addPair?, Entries.add?, fresh]

theorem readPair_integer (p : Pair) (stops : Stops isToken rest) (room : Nat) :
    readPair (readValue room)
        (p.key.toList ++ (p.before ++ '=' :: (p.after ++ p.literal)) ++ rest) =
      some ((⟨[], p.key⟩, .scalar (.integer p.value)), rest) := by
  obtain ⟨c, more, same, begins⟩ := p.writes.numeric.begins
  have trimmed : (p.after ++ p.literal ++ rest).dropWhile isBlank = p.literal ++ rest := by
    rw [List.append_assoc]
    rw [same]
    refine dropWhile_append p.blank_after (stops_cons ?_)
    rcases begins with digit | rfl | rfl
    · exact isBlank_eq_false rfl rfl digit
    · rfl
    · rfl
  have limit : depthLimit - 1 = 78 + 1 := rfl
  have key := readKey_bare p 78 (p.after ++ p.literal ++ rest)
  rw [readPair, limit]
  simp only [List.append_assoc, List.cons_append] at key trimmed ⊢
  rw [key]
  simp only [Option.bind_eq_bind, Option.bind_some, trimmed,
    readValue_integer p.writes p.word stops]

theorem readLine_pair (p : Pair) (e : Trailer) (breaks : Breaks cs rest)
    (top : d.current = []) (fresh : d.root.lookup p.key = none) :
    readLine d (p.chars ++ (e.chars ++ cs)) =
      some ({ d with root := d.root ++ [p.entry] }, rest) := by
  obtain ⟨c, name, key, bare⟩ := p.key_eq_cons
  obtain ⟨visible, bracket, -⟩ := isBareKey_cases bare
  have trimmed : (p.chars ++ (e.chars ++ cs)).dropWhile isBlank =
      p.key.toList ++ (p.before ++ '=' :: (p.after ++ p.literal)) ++ (e.chars ++ cs) := by
    rw [Pair.chars, List.append_assoc]
    rw [key]
    exact dropWhile_append p.indented (stops_cons visible)
  have pair := readPair_integer p (e.stops breaks) (depthLimit - 1)
  unfold readLine
  rw [trimmed]
  rw [key] at pair ⊢
  split
  · rename_i same
    exact absurd (List.cons.inj same).1 bracket
  · rename_i same
    exact absurd (List.cons.inj same).1 bracket
  · simp only [List.cons_append, afterLine?_bare bare] at pair ⊢
    rw [pair]
    simp only [Option.bind_eq_bind, Option.bind_some, Draft.addPair?_fresh top fresh,
      afterLine?_trailer e breaks]
    rfl

theorem readLine_void (e : Trailer) (breaks : Breaks cs rest) :
    readLine d (e.chars ++ cs) = some (d, rest) := by
  have ended := afterLine?_trailer e breaks
  have again : afterLine? ((e.chars ++ cs).dropWhile isBlank) = some rest := by
    rw [← ended, afterLine?, afterLine?, List.dropWhile_idempotent]
  unfold readLine
  split
  · rename_i same
    rw [same] at again
    exact absurd again (by simp [afterLine?, isBlank, afterNewline?])
  · rename_i same
    rw [same] at again
    exact absurd again (by simp [afterLine?, isBlank, afterNewline?])
  · simp only [again]

def Line.entries (l : Line) : Entries := l.pair.toList.map Pair.entry

theorem readLine_line (l : Line) (breaks : Breaks cs rest) (top : d.current = [])
    (fresh : ∀ p ∈ l.pair, d.root.lookup p.key = none) :
    readLine d (l.chars ++ cs) = some ({ d with root := d.root ++ l.entries }, rest) := by
  obtain ⟨pair, e⟩ := l
  cases pair with
  | none =>
    have void := readLine_void (d := d) e breaks
    simpa [Line.chars, Line.entries] using void
  | some p =>
    have read := readLine_pair p e breaks top (fresh p rfl)
    simpa [Line.chars, Line.entries] using read

theorem Line.entries_of_chars (l : Line) (empty : l.chars = []) : l.entries = [] := by
  obtain ⟨pair, e⟩ := l
  cases pair with
  | none => rfl
  | some p =>
    have chars := (List.append_eq_nil_iff.1 empty).1
    simp [Pair.chars] at chars

def Fresh (root : Entries) (pairs : List Pair) : Prop :=
  (pairs.map Pair.key).Nodup ∧ ∀ p ∈ pairs, root.lookup p.key = none

theorem Fresh.later {root : Entries} {l : Line} {pairs : List Pair}
    (fresh : Fresh root (l.pair.toList ++ pairs)) : Fresh (root ++ l.entries) pairs := by
  obtain ⟨distinct, new⟩ := fresh
  rw [List.map_append, List.nodup_append] at distinct
  obtain ⟨-, distinct, apart⟩ := distinct
  refine ⟨distinct, fun p hp => ?_⟩
  rw [List.lookup_append, new p (List.mem_append_right _ hp), Option.none_or]
  obtain ⟨pair, e⟩ := l
  cases pair with
  | none => rfl
  | some q =>
    have ne : p.key ≠ q.key := fun same =>
      apart q.key (by simp) p.key (List.mem_map_of_mem hp) same.symm
    simp [Line.entries, Pair.entry, List.lookup_cons, beq_false_of_ne ne]

/-- Each line is read on its own. There is at least one character for it, so the number of
characters bounds the lines. -/
theorem readLines_body (last : Line) (lines : List (Line × Break)) :
    ∀ (fuel : Nat) (d : Draft), (bodyChars lines last).length ≤ fuel → d.current = [] →
      Fresh d.root (bodyPairs lines last) → readLines fuel d (bodyChars lines last) =
        some { d with root := d.root ++ (bodyPairs lines last).map Pair.entry } := by
  induction lines with
  | nil =>
    intro fuel d enough top fresh
    change readLines fuel d last.chars = some { d with root := d.root ++ last.entries }
    cases chars : last.chars with
    | nil =>
      rw [last.entries_of_chars chars, List.append_nil]
      cases fuel <;> rfl
    | cons c cs =>
      have last_read := readLine_line last .done top fun p hp =>
        fresh.2 p (by simpa [bodyPairs] using hp)
      rw [List.append_nil] at last_read
      cases fuel with
      | zero => exact absurd enough (by simp [bodyChars, chars])
      | succ fuel =>
        rw [← chars, readLines, last_read]
        · cases fuel <;> rfl
        · simp [chars]
  | cons line lines ih =>
    intro fuel d enough top fresh
    obtain ⟨l, b⟩ := line
    have chars : bodyChars ((l, b) :: lines) last =
        l.chars ++ (b.chars ++ bodyChars lines last) := by
      simp [bodyChars]
    have pairs : bodyPairs ((l, b) :: lines) last = l.pair.toList ++ bodyPairs lines last := by
      simp [bodyPairs]
    rw [pairs] at fresh ⊢
    rw [chars] at enough ⊢
    have first := readLine_line l (.line b (bodyChars lines last)) top fun p hp =>
      fresh.2 p (List.mem_append_left _ (by simpa using hp))
    have broken : 1 ≤ b.chars.length := by cases b <;> decide
    simp only [List.length_append] at enough
    cases fuel with
    | zero => omega
    | succ fuel =>
      rw [readLines, first]
      · refine (ih fuel { d with root := d.root ++ l.entries } (by omega) top fresh.later).trans ?_
        simp [Line.entries]
      · intro none
        have empty := congrArg List.length none
        simp only [List.length_append, List.length_nil] at empty
        omega

/-- No line begins with a byte order mark. -/
theorem readLine_mark (d : Draft) (cs : List Char) : readLine d ('\uFEFF' :: cs) = none := by
  have visible : ('\uFEFF' :: cs).dropWhile isBlank = '\uFEFF' :: cs := rfl
  have limit : depthLimit - 1 = 78 + 1 := rfl
  have ended : afterLine? ('\uFEFF' :: cs) = none := rfl
  have noKey : readKeyPart ('\uFEFF' :: cs) = none := rfl
  have unread : readPair (readValue (depthLimit - 1)) ('\uFEFF' :: cs) = none := by
    rw [readPair, limit, readKey, visible, noKey]
    rfl
  unfold readLine
  rw [visible]
  split
  · rename_i same
    exact absurd (List.cons.inj same).1 (by decide)
  · rename_i same
    exact absurd (List.cons.inj same).1 (by decide)
  · simp only [ended, unread]
    rfl

theorem FlatDocument.afterMark_chars (doc : FlatDocument)
    (distinct : (doc.pairs.map Pair.key).Nodup) :
    afterMark doc.chars = bodyChars doc.lines doc.last := by
  obtain ⟨mark, lines, last⟩ := doc
  cases mark with
  | true => rfl
  | false =>
    change afterMark (bodyChars lines last) = _
    unfold afterMark
    split
    · -- the body can be read, so it begins with no mark
      rename_i cs same
      have read := readLines_body last lines _ {} le_rfl rfl ⟨distinct, fun _ _ => rfl⟩
      rw [same, List.length_cons, readLines, readLine_mark] at read
      · exact absurd read (by simp)
      · simp
    · rfl

theorem readDocument?_flat (doc : FlatDocument) (distinct : (doc.pairs.map Pair.key).Nodup) :
    readDocument? doc.text = some (doc.pairs.map Pair.entry) := by
  have read := readLines_body doc.last doc.lines _ {} le_rfl rfl ⟨distinct, fun _ _ => rfl⟩
  have chars : afterMark doc.text.toList = bodyChars doc.lines doc.last := by
    rw [FlatDocument.text, String.toList_ofList, doc.afterMark_chars distinct]
  rw [readDocument?, chars, read]
  rfl

end LiveItems.Toml
