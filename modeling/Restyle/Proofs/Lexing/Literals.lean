import Restyle.Proofs.Lexing.Forms

/-!
# Literals that stand on one line

Strings that do not start with three quotes and names between back quotes are to be closed on the
line on which they are opened.  This file gives a grammar for both and says that the lexer reads
what the grammar describes.

A string consists of pieces: characters that stand for themselves, escapes, and interpolations, in
which round brackets belong together.  A line end is none of the characters that stand for
themselves, and it cannot stand in an interpolation.  But an escape is a backslash with *any*
character after it, and so a string goes on after a line end with a backslash before it.

* `Literal kind cs`: the characters are a string or a name between back quotes.
* `Literal.escapes`: a line end in a string has a backslash before it that protects it.
* `stringTail?_eq_some_iff`, `quotedNameTail?_eq_some_iff`: the lexer measures literals.
* `scanFrom_of_literalKind?`: where a literal starts, the lexer reads a literal if there is one and
  reports the error otherwise.
* `oneLine_scan`: what this says about the tokens of a text.  `string_of_escaped_lineFeed`: a string
  with a line end in it.
-/

namespace Restyle
namespace Token

/-! ## The grammar -/

/-- The inside of an interpolation: round brackets belong together and the line does not end. -/
inductive Group : List Char → Prop
  /-- Nothing. -/
  | nil : Group []
  /-- A character. -/
  | char {c : Char} {rest : List Char} (hopen : c ≠ '(') (hclose : c ≠ ')')
      (hline : isLineEnd c = false) (hrest : Group rest) : Group (c :: rest)
  /-- A group in brackets. -/
  | nested {inner rest : List Char} (hinner : Group inner) (hrest : Group rest) :
      Group ('(' :: (inner ++ ')' :: rest))

/-- A piece of what stands between the quotes of a string. -/
inductive Piece : List Char → Prop
  /-- A character that stands for itself. -/
  | plain {c : Char} (hquote : c ≠ '"') (hescape : c ≠ '\\') (hline : isLineEnd c = false) :
      Piece [c]
  /-- A backslash and any character after it. -/
  | escape {c : Char} (hc : c ≠ '(') : Piece ['\\', c]
  /-- An interpolation. -/
  | interpolation {inner : List Char} (h : Group inner) : Piece ('\\' :: '(' :: (inner ++ [')']))

/-- What stands between the quotes of a string: any number of pieces. -/
inductive Body : List Char → Prop
  /-- No piece. -/
  | nil : Body []
  /-- One piece more. -/
  | piece {p rest : List Char} (hp : Piece p) (hrest : Body rest) : Body (p ++ rest)

/-- A literal that is to be closed on its line. -/
inductive Literal : Kind → List Char → Prop
  /-- A string between quotes. -/
  | string {body : List Char} (h : Body body) : Literal .stringLiteral ('"' :: (body ++ ['"']))
  /-- A name between back quotes. -/
  | quotedName {name : List Char} (hname : name ≠ [])
      (h : ∀ c ∈ name, c ≠ '\x60' ∧ isLineEnd c = false) :
      Literal .identifier ('\x60' :: (name ++ ['\x60']))

/-- The kind of literal that starts at the front of a text. -/
def literalKind? : List Char → Option Kind
  | '"' :: '"' :: '"' :: _ => none
  | '"' :: _ => some .stringLiteral
  | '\x60' :: _ => some .identifier
  | _ => none

/-! ## Line ends -/

/-- What stands before a character of a string that a backslash protects. -/
def Escapes (before : List Char) : Prop := ∃ body, Body body ∧ before = '"' :: (body ++ ['\\'])

theorem Group.isLineEnd_eq_false {cs : List Char} (h : Group cs) :
    ∀ c ∈ cs, isLineEnd c = false := by
  induction h with
  | nil => simp
  | char _ _ hline _ ih => exact List.forall_mem_cons.2 ⟨hline, ih⟩
  | nested _ _ ihinner ihrest =>
    rw [List.forall_mem_cons, List.forall_mem_append, List.forall_mem_cons]
    exact ⟨rfl, ihinner, rfl, ihrest⟩

/-- The only piece with a line end in it is an escape. -/
theorem Piece.eq_of_isLineEnd {before after : List Char} {c : Char}
    (h : Piece (before ++ c :: after)) (hc : isLineEnd c = true) : before = ['\\'] := by
  generalize hp : before ++ c :: after = p at h
  have hmem : c ∈ p := by simp [← hp]
  cases h with
  | plain _ _ hline =>
    obtain rfl := List.mem_singleton.1 hmem
    exact absurd hc (by simp [hline])
  | escape =>
    cases before with
    | nil =>
      rw [(List.cons.inj hp).1] at hc
      exact absurd hc (by decide)
    | cons x before =>
      rw [List.cons_append] at hp
      obtain ⟨rfl, htail⟩ := List.cons.inj hp
      have hlength := congrArg List.length htail
      simp only [List.length_append, List.length_cons, List.length_nil] at hlength
      rw [List.length_eq_zero_iff.1 (by omega : before.length = 0)]
  | @interpolation inner h =>
    have hline : ∀ d ∈ '\\' :: '(' :: (inner ++ [')']), isLineEnd d = false := by
      rw [List.forall_mem_cons, List.forall_mem_cons, List.forall_mem_append]
      exact ⟨rfl, rfl, h.isLineEnd_eq_false, by simp [isLineEnd]⟩
    exact absurd hc (by simp [hline c hmem])

theorem Body.exists_of_isLineEnd {cs before after : List Char} {c : Char} (h : Body cs)
    (hcs : cs = before ++ c :: after) (hc : isLineEnd c = true) :
    ∃ body, Body body ∧ before = body ++ ['\\'] := by
  induction h generalizing before with
  | nil => exact absurd hcs (by simp)
  | @piece p rest hp _ ih =>
    rcases List.append_eq_append_iff.1 hcs with ⟨a, rfl, ha⟩ | ⟨a, rfl, ha⟩
    · obtain ⟨body, hbody, rfl⟩ := ih ha
      exact ⟨p ++ body, .piece hp hbody, by simp⟩
    · cases a with
      | nil =>
        obtain ⟨body, hbody, hnil⟩ := ih (show rest = [] ++ c :: after from ha.symm)
        exact absurd hnil (by simp)
      | cons x a =>
        obtain ⟨rfl, -⟩ := List.cons.inj ha
        exact ⟨[], .nil, hp.eq_of_isLineEnd hc⟩

/-- **A line end in a string is escaped.** -/
theorem Literal.escapes {before after : List Char} {c : Char}
    (h : Literal .stringLiteral (before ++ c :: after)) (hc : isLineEnd c = true) :
    Escapes before := by
  generalize hcs : before ++ c :: after = cs at h
  cases h with
  | @string body h =>
    cases before with
    | nil =>
      rw [(List.cons.inj hcs).1] at hc
      exact absurd hc (by decide)
    | cons x before =>
      obtain ⟨rfl, htail⟩ := List.cons.inj hcs
      rcases List.append_eq_append_iff.1 htail with ⟨a, rfl, ha⟩ | ⟨a, rfl, ha⟩
      · cases a with
        | nil =>
          rw [(List.cons.inj ha).1] at hc
          exact absurd hc (by decide)
        | cons y a =>
          obtain ⟨rfl, -⟩ := List.cons.inj ha
          obtain ⟨body, hbody, rfl⟩ := h.exists_of_isLineEnd rfl hc
          exact ⟨body, hbody, rfl⟩
      · have hmem : c ∈ ['"'] := by simp [ha]
        rw [List.mem_singleton.1 hmem] at hc
        exact absurd hc (by decide)

/-- A name between back quotes stays on its line. -/
theorem Literal.isLineEnd_eq_false {cs : List Char} (h : Literal .identifier cs) :
    ∀ c ∈ cs, isLineEnd c = false := by
  cases h with
  | quotedName _ h =>
    rw [List.forall_mem_cons, List.forall_mem_append]
    exact ⟨rfl, fun c hc => (h c hc).2, by simp [isLineEnd]⟩

/-! ## How the lexer measures a string -/

/-- The inside of an interpolation is passed over. -/
theorem stringTail?_group {inner : List Char} (h : Group inner) (depth : Nat) (rest : List Char) :
    stringTail? (depth + 1) (inner ++ ')' :: rest) =
      (stringTail? depth rest).map (· + (inner.length + 1)) := by
  induction h generalizing depth rest with
  | nil => rw [List.nil_append, stringTail?_succ_cons]; rfl
  | char hopen hclose hline _ ih =>
    rw [List.cons_append, stringTail?_succ_cons, if_neg (by simp [hline]), if_neg hopen,
      if_neg hclose, ih, Option.map_map]
    rfl
  | nested _ _ ihinner ihrest =>
    rw [List.cons_append, stringTail?_succ_cons, if_neg (by decide), if_pos rfl,
      List.append_assoc, List.cons_append, ihinner, ihrest, Option.map_map, Option.map_map]
    congr 1
    funext m
    simp only [Function.comp_apply, List.length_cons, List.length_append]
    omega

/-- So is a piece of a string. -/
theorem stringTail?_piece {p : List Char} (h : Piece p) (rest : List Char) :
    stringTail? 0 (p ++ rest) = (stringTail? 0 rest).map (· + p.length) := by
  cases h with
  | plain hquote hescape hline =>
    rw [List.singleton_append, stringTail?_zero_cons, if_neg hquote, if_neg hescape,
      if_neg (by simp [hline])]
    rfl
  | escape hc =>
    rw [List.cons_append, stringTail?_zero_cons, if_neg (by decide), if_pos rfl]
    simp [hc]
  | interpolation h =>
    rw [List.cons_append, stringTail?_zero_cons, if_neg (by decide), if_pos rfl]
    simp only [List.cons_append, List.head?_cons, Option.bind_some, List.tail_cons, if_true,
      List.append_assoc, List.nil_append]
    rw [stringTail?_group h, Option.map_map]
    congr 1
    funext m
    simp only [Function.comp_apply, List.length_cons, List.length_append, List.length_nil]
    omega

theorem stringTail?_body {body : List Char} (h : Body body) (rest : List Char) :
    stringTail? 0 (body ++ '"' :: rest) = some (body.length + 1) := by
  induction h with
  | nil => rw [List.nil_append, stringTail?_zero_cons, if_pos rfl]; rfl
  | @piece p body hp _ ih =>
    rw [List.append_assoc, stringTail?_piece hp, ih, Option.map_some, List.length_append]
    congr 1
    omega

/-- What is passed over inside an interpolation is a group.  The induction is on the length of the
text, since a bracket inside the group takes two steps: to the end of its own group and on from
there. -/
theorem exists_group {cs : List Char} {depth n : Nat} (h : stringTail? (depth + 1) cs = some n) :
    ∃ inner rest m, Group inner ∧ cs = inner ++ ')' :: rest ∧ stringTail? depth rest = some m := by
  induction hlength : cs.length using Nat.strong_induction_on generalizing cs depth n with
  | _ length ih =>
    cases cs with
    | nil => exact absurd h (by simp [stringTail?])
    | cons c cs =>
      rw [List.length_cons] at hlength
      rw [stringTail?_succ_cons] at h
      split at h
      · exact absurd h (by simp)
      · rename_i hline
        obtain ⟨m, hm, -⟩ := Option.map_eq_some_iff.1 h
        by_cases hopen : c = '('
        · subst hopen
          obtain ⟨inner, rest, k, hinner, rfl, hk⟩ := ih cs.length (by omega) hm rfl
          rw [List.length_append, List.length_cons] at hlength
          obtain ⟨inner', rest', k', hinner', rfl, hk'⟩ := ih rest.length (by omega) hk rfl
          exact ⟨_, rest', k', .nested hinner hinner', by simp, hk'⟩
        · rw [if_neg hopen] at hm
          by_cases hclose : c = ')'
          · subst hclose
            exact ⟨[], cs, m, .nil, rfl, hm⟩
          · rw [if_neg hclose] at hm
            obtain ⟨inner, rest, k, hinner, rfl, hk⟩ := ih cs.length (by omega) hm rfl
            exact ⟨c :: inner, rest, k, .char hopen hclose (by simpa using hline) hinner, rfl, hk⟩

/-- What is passed over up to the closing quote consists of pieces. -/
theorem exists_body {cs : List Char} {n : Nat} (h : stringTail? 0 cs = some n) :
    ∃ body rest, Body body ∧ cs = body ++ '"' :: rest := by
  -- one piece more in front
  have hcons : ∀ {p cs : List Char}, Piece p → (∃ body rest, Body body ∧ cs = body ++ '"' :: rest) →
      ∃ body rest, Body body ∧ p ++ cs = body ++ '"' :: rest := by
    rintro p cs hp ⟨body, rest, hbody, rfl⟩
    exact ⟨p ++ body, rest, .piece hp hbody, by simp⟩
  induction hlength : cs.length using Nat.strong_induction_on generalizing cs n with
  | _ length ih =>
    cases cs with
    | nil => exact absurd h (by simp [stringTail?])
    | cons c cs =>
      rw [List.length_cons] at hlength
      rw [stringTail?_zero_cons] at h
      split at h
      · rename_i hquote
        exact ⟨[], cs, .nil, by simp [hquote]⟩
      · rename_i hquote
        split at h
        · rename_i hescape
          subst hescape
          obtain ⟨d, hd, hrest⟩ := Option.bind_eq_some_iff.1 h
          obtain ⟨rest, rfl⟩ := List.head?_eq_some_iff.1 hd
          obtain ⟨m, hm, -⟩ := Option.map_eq_some_iff.1 hrest
          rw [List.tail_cons] at hm
          rw [List.length_cons] at hlength
          by_cases hopen : d = '('
          · subst hopen
            obtain ⟨inner, rest', k, hinner, rfl, hk⟩ := exists_group hm
            rw [List.length_append, List.length_cons] at hlength
            have hpiece := hcons (.interpolation hinner) (ih rest'.length (by omega) hk rfl)
            simpa using hpiece
          · rw [if_neg hopen] at hm
            exact hcons (.escape hopen) (ih rest.length (by omega) hm rfl)
        · rename_i hescape
          split at h
          · exact absurd h (by simp)
          · rename_i hline
            obtain ⟨m, hm, -⟩ := Option.map_eq_some_iff.1 h
            exact hcons (.plain hquote hescape (by simpa using hline))
              (ih cs.length (by omega) hm rfl)

/-- **The lexer measures strings**: up to and with the quote that closes them. -/
theorem stringTail?_eq_some_iff {cs : List Char} {n : Nat} :
    stringTail? 0 cs = some n ↔
      ∃ body rest, Body body ∧ cs = body ++ '"' :: rest ∧ n = body.length + 1 := by
  constructor
  · intro h
    obtain ⟨body, rest, hbody, rfl⟩ := exists_body h
    rw [stringTail?_body hbody] at h
    exact ⟨body, rest, hbody, rfl, (Option.some.inj h).symm⟩
  · rintro ⟨body, rest, hbody, rfl, rfl⟩
    exact stringTail?_body hbody rest

/-- **The lexer measures names between back quotes.** -/
theorem quotedNameTail?_eq_some_iff {cs : List Char} {n : Nat} :
    quotedNameTail? cs = some n ↔ ∃ name rest : List Char, name ≠ [] ∧
      (∀ c ∈ name, c ≠ '\x60' ∧ isLineEnd c = false) ∧ cs = name ++ '\x60' :: rest ∧
        n = name.length + 1 := by
  have hclass : ∀ c, (!(c == '\x60' || isLineEnd c)) = true ↔ c ≠ '\x60' ∧ isLineEnd c = false := by
    simp
  unfold quotedNameTail?
  dsimp only
  constructor
  · intro h
    split at h
    · exact absurd h (by simp)
    · rename_i hzero
      split at h
      · rename_i hquote
        rw [← List.head?_drop, drop_run] at hquote
        obtain ⟨rest, hrest⟩ := List.head?_eq_some_iff.1 hquote
        refine ⟨cs.takeWhile fun c => !(c == '\x60' || isLineEnd c), rest, ?_, ?_, ?_,
          (Option.some.inj h).symm⟩
        · exact fun hnil => hzero (List.length_eq_zero_iff.2 hnil)
        · exact fun c hc => (hclass c).1 (List.all_eq_true.1 List.all_takeWhile c hc)
        · rw [← hrest, List.takeWhile_append_dropWhile]
      · exact absurd h (by simp)
  · rintro ⟨name, rest, hname, hall, rfl, rfl⟩
    have hrun : run (fun c => !(c == '\x60' || isLineEnd c)) (name ++ '\x60' :: rest) =
        name.length :=
      run_append_eq_length_iff.2 ⟨fun c hc => (hclass c).2 (hall c hc), by simp⟩
    rw [hrun, if_neg (by simpa using hname), if_pos (by simp)]

/-! ## Literals at the front of a text -/

/-- A text starts with a literal of the kind, which has `n` characters after its first. -/
def StartsWith (kind : Kind) (cs : List Char) (n : Nat) : Prop :=
  ∃ literal rest, Literal kind literal ∧ cs = literal ++ rest ∧ literal.length = n + 1

theorem StartsWith.literal {kind : Kind} {c : Char} {rest : List Char} {n : Nat}
    (h : StartsWith kind (c :: rest) n) : Literal kind (c :: rest.take n) := by
  obtain ⟨literal, tail, hliteral, heq, hlength⟩ := h
  have htake : (c :: rest).take (n + 1) = literal := by rw [heq, ← hlength, List.take_left]
  rwa [← List.take_succ_cons, htake]

theorem startsWith_string_iff {rest : List Char} {n : Nat} :
    StartsWith .stringLiteral ('"' :: rest) n ↔ stringTail? 0 rest = some n := by
  rw [stringTail?_eq_some_iff]
  constructor
  · rintro ⟨literal, tail, hliteral, heq, hlength⟩
    cases hliteral with
    | string hbody => exact ⟨_, tail, hbody, by simpa using heq, by simpa using hlength.symm⟩
  · rintro ⟨body, tail, hbody, rfl, rfl⟩
    exact ⟨_, tail, .string hbody, by simp, by simp⟩

theorem startsWith_quotedName_iff {rest : List Char} {n : Nat} :
    StartsWith .identifier ('\x60' :: rest) n ↔ quotedNameTail? rest = some n := by
  rw [quotedNameTail?_eq_some_iff]
  constructor
  · rintro ⟨literal, tail, hliteral, heq, hlength⟩
    cases hliteral with
    | quotedName hname hall =>
      exact ⟨_, tail, hname, hall, by simpa using heq, by simpa using hlength.symm⟩
  · rintro ⟨name, tail, hname, hall, rfl, rfl⟩
    exact ⟨_, tail, .quotedName hname hall, by simp, by simp⟩

/-- **Where a literal starts, the lexer looks for one**, and it finds nothing else. -/
theorem lexeme_of_literalKind? {c : Char} {rest : List Char} {kind : Kind}
    (h : literalKind? (c :: rest) = some kind) :
    ∃ length, lexeme c rest = .ofLength? kind length ∧
      ∀ n, StartsWith kind (c :: rest) n ↔ length = some n := by
  unfold literalKind? at h
  split at h
  · exact absurd h (by simp)
  · rename_i more hshort heq
    obtain ⟨rfl, rfl⟩ := List.cons.inj heq
    obtain rfl := Option.some.inj h
    refine ⟨stringTail? 0 rest, ?_, fun n => startsWith_string_iff⟩
    exact quoteLexeme_of_not_long fun more hmore => hshort more (by rw [hmore])
  · rename_i more heq
    obtain ⟨rfl, rfl⟩ := List.cons.inj heq
    obtain rfl := Option.some.inj h
    exact ⟨quotedNameTail? rest, rfl, fun n => startsWith_quotedName_iff⟩
  · exact absurd h (by simp)

/-! ## Literals of a text -/

/-- **How a literal is read**: as a token of its kind if it is closed, and as the last error of the
text otherwise. -/
theorem scanFrom_of_literalKind? {scopes cs : List Char} {kind : Kind} {t : Token}
    {after : List Token} (h : scanFrom scopes cs = t :: after)
    (hkind : literalKind? cs = some kind) :
    ((∃ n, StartsWith kind cs n) → t.kind = kind ∧ Literal kind t.text.toList) ∧
      ((¬ ∃ n, StartsWith kind cs n) → t.isError = true ∧ after = []) := by
  cases cs with
  | nil => exact absurd hkind (by simp [literalKind?])
  | cons c rest =>
    obtain ⟨length, hlexeme, hlength⟩ := lexeme_of_literalKind? hkind
    cases length with
    | none =>
      refine ⟨fun ⟨n, hn⟩ => absurd ((hlength n).1 hn) (by simp), fun _ => ?_⟩
      rw [scanFrom] at h
      simp only [hlexeme, Lexeme.ofLength?] at h
      obtain ⟨rfl, rfl⟩ := List.cons.inj h
      exact ⟨rfl, rfl⟩
    | some n =>
      have hn : StartsWith kind (c :: rest) n := (hlength n).2 rfl
      have hscopes : scopesAfter? kind c scopes = some scopes := by
        obtain ⟨literal, -, hliteral, -⟩ := hn
        cases hliteral <;> rfl
      rw [scanFrom_cons_of_complete hlexeme hscopes] at h
      obtain ⟨rfl, -⟩ := List.cons.inj h
      refine ⟨fun _ => ⟨rfl, ?_⟩, fun hnone => absurd ⟨n, hn⟩ hnone⟩
      rw [String.toList_ofList]
      exact hn.literal

/-- A text that starts with no literal on its first line starts with none at all, unless the line
goes on in an escape. -/
theorem not_startsWith_append {kind : Kind} {line rest : List Char} {e : Char}
    (he : isLineEnd e = true) (hescapes : kind = .stringLiteral → ¬ Escapes line)
    (hline : ¬ ∃ n, StartsWith kind line n) : ¬ ∃ n, StartsWith kind (line ++ e :: rest) n := by
  rintro ⟨n, literal, tail, hliteral, heq, hlength⟩
  rcases List.append_eq_append_iff.1 heq with ⟨a, rfl, ha⟩ | ⟨a, rfl, -⟩
  · cases a with
    | nil => exact hline ⟨n, line, [], by simpa using hliteral, by simp, by simpa using hlength⟩
    | cons x a =>
      -- the line end would be part of the literal
      obtain ⟨rfl, -⟩ := List.cons.inj ha
      cases kind with
      | stringLiteral => exact hescapes rfl (hliteral.escapes he)
      | identifier => exact absurd he (by simp [hliteral.isLineEnd_eq_false e])
      | _ => nomatch hliteral
  · exact hline ⟨n, literal, _, hliteral, rfl, hlength⟩

/-- What is said about the literals of a text that are to stand on one line. -/
structure OneLine (ts : List Token) : Prop where
  /-- A string that does not start with three quotes is one of the grammar. -/
  strings : ∀ t ∈ ts, t.kind = .stringLiteral → ¬ ['"', '"', '"'] <+: t.text.toList →
    Literal .stringLiteral t.text.toList
  /-- It holds no line end but after a backslash that protects it. -/
  stringLines : ∀ t ∈ ts, t.kind = .stringLiteral → ¬ ['"', '"', '"'] <+: t.text.toList →
    ∀ before c after, t.text.toList = before ++ c :: after → c = '\n' ∨ c = '\r' → Escapes before
  /-- A name that starts with a back quote holds no line end. -/
  names : ∀ t ∈ ts, t.kind = .identifier → ['\x60'] <+: t.text.toList →
    '\n' ∉ t.text.toList ∧ '\r' ∉ t.text.toList
  /-- Where a literal starts, it is read if it is closed. -/
  closed : ∀ before t after kind, ts = before ++ t :: after →
    literalKind? (chars (t :: after)) = some kind →
    (∃ n, StartsWith kind (chars (t :: after)) n) → t.kind = kind ∧ Literal kind t.text.toList
  /-- If it is not closed, the last error of the text stands there. -/
  unclosed : ∀ before t after kind, ts = before ++ t :: after →
    literalKind? (chars (t :: after)) = some kind →
    (¬ ∃ n, StartsWith kind (chars (t :: after)) n) → t.isError = true ∧ after = []
  /-- So it does if the literal is not closed before the end of the line, unless it is a string and
  the end of the line is escaped. -/
  unclosedLine : ∀ before t after kind, ts = before ++ t :: after →
    literalKind? (chars (t :: after)) = some kind →
    ∀ line e rest, chars (t :: after) = line ++ e :: rest → e = '\n' ∨ e = '\r' →
    (kind = .stringLiteral → ¬ Escapes line) → (¬ ∃ n, StartsWith kind line n) →
    t.isError = true ∧ after = []

variable {s : String}

/-- Where a literal starts, the rest of the text is read from there. -/
theorem exists_scanFrom_of_literalKind? {before after : List Token} {t : Token} {kind : Kind}
    (h : scan s = before ++ t :: after) (hkind : literalKind? (chars (t :: after)) = some kind) :
    ∃ inner, scanFrom inner (chars (t :: after)) = t :: after := by
  have ht : t ≠ ⟨.error, ""⟩ := by
    rintro rfl
    cases after with
    | nil => exact absurd hkind (by simp [literalKind?])
    | cons u after =>
      have hnext : scan s = (before ++ [⟨.error, ""⟩]) ++ u :: after := by simpa using h
      have herror := isError_of_mem_before hnext (List.mem_append_right _ List.mem_cons_self)
      exact absurd herror (by simp [isError])
  obtain ⟨inner, rest, hscan⟩ := exists_scanFrom h ht
  refine ⟨inner, ?_⟩
  rw [← hscan, chars_scanFrom]

/-- **The literals of a text stay on their lines**, for every text, except where the end of a line
is escaped in a string. -/
theorem oneLine_scan (s : String) : OneLine (scan s) := by
  have hstring : ∀ t ∈ scan s, t.kind = .stringLiteral → ¬ ['"', '"', '"'] <+: t.text.toList →
      Literal .stringLiteral t.text.toList := by
    intro t ht hkind hshort
    obtain ⟨before, after, h⟩ := List.append_of_mem ht
    obtain ⟨scopes, cs, hscan⟩ := exists_scanFrom h (by rintro rfl; exact absurd hkind (by simp))
    cases step_of_scanFrom hscan with
    | @complete kind c rest _ n hform _ =>
      obtain rfl : kind = .stringLiteral := hkind
      cases hform with
      | name _ hkind => exact absurd hkind (by simp)
      | longString hc hrest _ =>
        subst hc hrest
        exact absurd (by simp) hshort
      | string hc _ hn =>
        subst hc
        rw [String.toList_ofList]
        exact (startsWith_string_iff.2 hn).literal
    | openString => exact absurd (by simp) hshort
    | openComment | error => exact absurd hkind (by simp)
  refine ⟨hstring, ?stringLines, ?names, ?closed, ?unclosed, ?unclosedLine⟩
  case stringLines =>
    intro t ht hkind hshort before c after htext hc
    have hliteral := hstring t ht hkind hshort
    rw [htext] at hliteral
    exact hliteral.escapes (isLineEnd_iff.2 hc)
  case names =>
    intro t ht hkind hquote
    obtain ⟨before, after, h⟩ := List.append_of_mem ht
    obtain ⟨c, rest, n, inner, hform, htext, -⟩ := exists_form h (by simp [hkind])
    rw [hkind] at hform
    rw [htext, String.toList_ofList, List.cons_prefix_cons] at hquote
    obtain ⟨rfl, -⟩ := hquote
    cases hform with
    | name hname _ => exact absurd hname (by decide)
    | quotedName _ hn =>
      have hline := (startsWith_quotedName_iff.2 hn).literal.isLineEnd_eq_false
      rw [htext, String.toList_ofList]
      exact ⟨fun hlf => absurd (hline _ hlf) (by decide),
        fun hcr => absurd (hline _ hcr) (by decide)⟩
  case closed =>
    intro before t after kind h hkind hclosed
    obtain ⟨inner, hscan⟩ := exists_scanFrom_of_literalKind? h hkind
    exact (scanFrom_of_literalKind? hscan hkind).1 hclosed
  case unclosed =>
    intro before t after kind h hkind hunclosed
    obtain ⟨inner, hscan⟩ := exists_scanFrom_of_literalKind? h hkind
    exact (scanFrom_of_literalKind? hscan hkind).2 hunclosed
  case unclosedLine =>
    intro before t after kind h hkind line e rest hline he hescapes hunclosed
    obtain ⟨inner, hscan⟩ := exists_scanFrom_of_literalKind? h hkind
    refine (scanFrom_of_literalKind? hscan hkind).2 ?_
    rw [hline]
    exact not_startsWith_append (isLineEnd_iff.2 he) hescapes hunclosed

/-- **A string can go on after a line end**, and no error is reported. -/
theorem string_of_escaped_lineFeed :
    (∃ t ∈ scan "\"a\\\nb\"\n", t.kind = .stringLiteral ∧ ¬ ['"', '"', '"'] <+: t.text.toList ∧
      '\n' ∈ t.text.toList) ∧ ∀ t ∈ scan "\"a\\\nb\"\n", t.isError = false := by
  refine ⟨⟨⟨.stringLiteral, "\"a\\\nb\""⟩, ?_, ?_⟩, ?_⟩
  all_goals decide +kernel

end Token
end Restyle
