import Restyle.Proofs.Lexing.Legible

/-!
# The forms of tokens

The lexer decides by the first character of a text what stands at its front, and it does so in
one long distinction of cases.  This file goes through the cases once, so that what is said about
tokens later can start from the form that a token has.

* `Form c rest kind n`: a token of the kind stands at the front of `c :: rest`, with `n` characters
  after its first.  There is one constructor for each way in which the lexer makes tokens.
* `found_lexeme`: these are all the ways.
* `Step scopes cs t after`: how a text is read as a token and the tokens after it.
* `step_of_scanFrom`, `exists_scanFrom`: so does the lexer read a text, and wherever one stops in
  its tokens, the rest of them was read so.
-/

namespace Restyle
namespace Token

/-! ## Runs of characters -/

theorem take_run (p : Char → Bool) (cs : List Char) : cs.take (run p cs) = cs.takeWhile p :=
  (List.prefix_iff_eq_take.1 (List.takeWhile_prefix p)).symm

theorem drop_run (p : Char → Bool) (cs : List Char) : cs.drop (run p cs) = cs.dropWhile p := by
  have happend := List.takeWhile_append_dropWhile (p := p) (l := cs)
  calc cs.drop (run p cs) = (cs.takeWhile p ++ cs.dropWhile p).drop (cs.takeWhile p).length := by
        rw [happend, run]
    _ = cs.dropWhile p := List.drop_left

/-- A run is as long as it can be. -/
theorem not_of_mem_head?_drop_run {p : Char → Bool} {cs : List Char} {c : Char}
    (h : c ∈ (cs.drop (run p cs)).head?) : p c = false := by
  rw [drop_run] at h
  have hnot := List.head?_dropWhile_not p cs
  rw [Option.mem_def.1 h] at hnot
  simpa using hnot

/-! ## What stands at the front of a text -/

/-- The ways in which a token can stand at the front of the text `c :: rest`. -/
inductive Form (c : Char) (rest : List Char) : Kind → Nat → Prop
  /-- A run of blanks. -/
  | space (h : isSpaceChar c = true) : Form c rest .space (run isSpaceChar rest)
  /-- A line feed. -/
  | lineFeed (h : c = '\n') : Form c rest .linebreak 0
  /-- A carriage return, with a line feed if one follows. -/
  | carriageReturn (h : c = '\r') :
      Form c rest .linebreak (if rest.head? = some '\n' then 1 else 0)
  /-- A comment that ends with its line. -/
  | lineComment {more : List Char} (h : c = '/') (hrest : rest = '/' :: more) :
      Form c rest .comment (run (!isLineEnd ·) more + 1)
  /-- A comment that has an end of its own. -/
  | blockComment {more : List Char} {n : Nat} (h : c = '/') (hrest : rest = '*' :: more)
      (hn : commentTail? 0 more = some n) : Form c rest .comment (n + 1)
  /-- A string between triple quotes. -/
  | longString {more : List Char} {n : Nat} (h : c = '"') (hrest : rest = '"' :: '"' :: more)
      (hn : longStringTail? more = some n) : Form c rest .stringLiteral (n + 2)
  /-- A string between two quotes. -/
  | string {n : Nat} (h : c = '"') (hshort : ∀ more, rest ≠ '"' :: '"' :: more)
      (hn : stringTail? 0 rest = some n) : Form c rest .stringLiteral n
  /-- A name between back quotes. -/
  | quotedName {n : Nat} (h : c = '\x60') (hn : quotedNameTail? rest = some n) :
      Form c rest .identifier n
  /-- A number. -/
  | number (h : isDigit c = true) : Form c rest .number (numberTail rest)
  /-- A name without quotes, reserved or not. -/
  | name {kind : Kind} (h : startsName c = true) (hkind : kind = .keyword ∨ kind = .identifier) :
      Form c rest kind (run continuesName rest)
  /-- A directive or an attribute. -/
  | marked (h : c = '#' ∨ c = '@') : Form c rest .keyword (run continuesWord rest)
  /-- An operator.  A slash in front of it does not open a comment. -/
  | operator (h : isOperatorChar c = true) (hslash : c = '/' → opensComment rest = false) :
      Form c rest .operator (operatorTail rest)
  /-- An opening bracket. -/
  | opening (h : c = '(' ∨ c = '[' ∨ c = '{') : Form c rest .startOfScope 0
  /-- A closing bracket. -/
  | closing (h : c = ')' ∨ c = ']' ∨ c = '}') : Form c rest .endOfScope 0
  /-- A delimiter. -/
  | delimiter (h : c = ',' ∨ c = ';' ∨ c = ':') : Form c rest .delimiter 0

/-- What a lexeme says about the text `c :: rest`. -/
def Lexeme.Found (c : Char) (rest : List Char) : Lexeme → Prop
  | .complete kind n => Form c rest kind n
  | .unfinished kind =>
    (kind = .comment ∧ ∃ more, c :: rest = '/' :: '*' :: more) ∨
      (kind = .stringLiteral ∧ ∃ more, c :: rest = '"' :: '"' :: '"' :: more)
  | .unexpected => True

theorem found_slashLexeme (rest : List Char) : (slashLexeme rest).Found '/' rest := by
  unfold slashLexeme
  split
  · exact Form.lineComment rfl rfl
  · rename_i more
    cases hn : commentTail? 0 more with
    | none => exact Or.inl ⟨rfl, more, rfl⟩
    | some n => exact Form.blockComment rfl rfl hn
  · rename_i hline hblock
    refine Form.operator rfl fun _ => ?_
    unfold opensComment
    split
    · exact absurd rfl (hline _)
    · exact absurd rfl (hblock _)
    · rfl

theorem found_quoteLexeme (rest : List Char) : (quoteLexeme rest).Found '"' rest := by
  unfold quoteLexeme
  split
  · rename_i more
    cases hn : longStringTail? more with
    | none => exact Or.inr ⟨rfl, more, rfl⟩
    | some n => exact Form.longString rfl rfl hn
  · rename_i hlong
    cases hn : stringTail? 0 rest with
    | none => trivial
    | some n => exact Form.string rfl hlong hn

theorem found_nameLexeme {c : Char} (hc : startsName c = true) (rest : List Char) :
    (nameLexeme c rest).Found c rest := by
  unfold nameLexeme
  dsimp only
  split
  · exact Form.name hc (Or.inl rfl)
  · exact Form.name hc (Or.inr rfl)

theorem found_markedLexeme {c : Char} (hc : c = '#' ∨ c = '@') (rest : List Char) :
    (markedLexeme rest).Found c rest := by
  unfold markedLexeme
  split
  · trivial
  · exact Form.marked hc

/-- **What the lexer finds has one of the forms.** -/
theorem found_lexeme (c : Char) (rest : List Char) : (lexeme c rest).Found c rest := by
  unfold lexeme
  refine iteInduction (fun hspace => Form.space hspace) fun _ => ?_
  refine iteInduction (fun hlf => Form.lineFeed hlf) fun _ => ?_
  refine iteInduction (fun hcr => Form.carriageReturn hcr) fun _ => ?_
  refine iteInduction (fun hslash => ?_) fun hslash => ?_
  · subst hslash
    exact found_slashLexeme rest
  refine iteInduction (fun hquote => ?_) fun _ => ?_
  · subst hquote
    exact found_quoteLexeme rest
  refine iteInduction (fun hback => ?_) fun _ => ?_
  · cases hn : quotedNameTail? rest with
    | none => trivial
    | some n => exact Form.quotedName hback hn
  refine iteInduction (fun hdigit => Form.number hdigit) fun _ => ?_
  refine iteInduction (fun hname => found_nameLexeme hname rest) fun _ => ?_
  refine iteInduction (fun hmark => found_markedLexeme (by simpa using hmark) rest) fun _ => ?_
  refine iteInduction (fun hop => Form.operator hop fun hc => absurd hc hslash) fun _ => ?_
  refine iteInduction (fun hopen => Form.opening (by simpa [or_assoc] using hopen)) fun _ => ?_
  refine iteInduction (fun hclose => Form.closing (by simpa [or_assoc] using hclose)) fun _ => ?_
  refine iteInduction (fun hmark => Form.delimiter (by simpa [or_assoc] using hmark)) fun _ => ?_
  trivial

/-! ## The tokens of a text -/

/-- How the text `cs`, in which some brackets are open, comes to be read as the token `t` and the
tokens `after`. -/
inductive Step (scopes : List Char) : List Char → Token → List Token → Prop
  /-- The token is complete, and the rest of the text is read after it. -/
  | complete {kind : Kind} {c : Char} {rest inner : List Char} {n : Nat}
      (hform : Form c rest kind n) (hscopes : scopesAfter? kind c scopes = some inner) :
      Step scopes (c :: rest) ⟨kind, String.ofList (c :: rest.take n)⟩
        (scanFrom inner (rest.drop n))
  /-- The token is a comment that runs to the end of the text. -/
  | openComment (more : List Char) :
      Step scopes ('/' :: '*' :: more) ⟨.comment, String.ofList ('/' :: '*' :: more)⟩
        [⟨.error, ""⟩]
  /-- The token is a string that runs to the end of the text. -/
  | openString (more : List Char) :
      Step scopes ('"' :: '"' :: '"' :: more)
        ⟨.stringLiteral, String.ofList ('"' :: '"' :: '"' :: more)⟩ [⟨.error, ""⟩]
  /-- The token is an error that holds the whole text. -/
  | error (cs : List Char) : Step scopes cs ⟨.error, String.ofList cs⟩ []

/-- **The lexer makes one of these steps.** -/
theorem step_of_scanFrom {scopes cs : List Char} {t : Token} {after : List Token}
    (h : scanFrom scopes cs = t :: after) : Step scopes cs t after := by
  unfold scanFrom at h
  split at h
  · split at h
    · exact absurd h (by simp)
    · obtain ⟨rfl, rfl⟩ := List.cons.inj h
      exact .error []
  · rename_i c rest
    have hfound := found_lexeme c rest
    split at h
    · obtain ⟨rfl, rfl⟩ := List.cons.inj h
      exact .error (c :: rest)
    · rename_i kind hlex
      obtain ⟨rfl, rfl⟩ := List.cons.inj h
      rw [hlex] at hfound
      rcases hfound with ⟨rfl, more, heq⟩ | ⟨rfl, more, heq⟩
      · rw [heq]
        exact .openComment more
      · rw [heq]
        exact .openString more
    · rename_i kind n hlex
      rw [hlex] at hfound
      split at h
      · obtain ⟨rfl, rfl⟩ := List.cons.inj h
        exact .error (c :: rest)
      · rename_i inner hscopes
        obtain ⟨rfl, rfl⟩ := List.cons.inj h
        exact .complete hfound hscopes

/-- **The end of a text is read as the end of its tokens**, wherever one stops.  Only the error
after an unfinished token is left out. -/
theorem exists_scanFrom {scopes cs : List Char} {before after : List Token} {t : Token}
    (h : scanFrom scopes cs = before ++ t :: after) (ht : t ≠ ⟨.error, ""⟩) :
    ∃ inner rest, scanFrom inner rest = t :: after := by
  induction before generalizing scopes cs with
  | nil => exact ⟨scopes, cs, h⟩
  | cons b before ih =>
    have hlast : [⟨.error, ""⟩] ≠ before ++ t :: after := by
      intro heq
      have hmem : t ∈ [(⟨.error, ""⟩ : Token)] := by
        rw [heq]
        simp
      exact ht (List.mem_singleton.1 hmem)
    rw [List.cons_append] at h
    have hstep := step_of_scanFrom h
    generalize htail : before ++ t :: after = tail at hstep hlast
    cases hstep with
    | complete _ _ => exact ih htail.symm
    | openComment | openString => exact absurd rfl hlast
    | error => exact absurd htail (by simp)

/-- A token that is no comment, no string and no error is complete. -/
theorem exists_form {scopes cs : List Char} {before after : List Token} {t : Token}
    (h : scanFrom scopes cs = before ++ t :: after)
    (hkind : t.kind ≠ .comment ∧ t.kind ≠ .stringLiteral ∧ t.kind ≠ .error) :
    ∃ c rest n inner, Form c rest t.kind n ∧ t.text = String.ofList (c :: rest.take n) ∧
      scanFrom inner (rest.drop n) = after := by
  obtain ⟨outer, rest, hscan⟩ := exists_scanFrom h (by rintro rfl; exact hkind.2.2 rfl)
  cases step_of_scanFrom hscan with
  | complete hform _ => exact ⟨_, _, _, _, hform, rfl, rfl⟩
  | openComment => exact absurd rfl hkind.1
  | openString => exact absurd rfl hkind.2.1
  | error => exact absurd rfl hkind.2.2

/-- Only the last token of a text can be an error. -/
theorem isError_of_mem_before {s : String} {before after : List Token} {t u : Token}
    (h : scan s = before ++ t :: after) (hu : u ∈ before) : u.isError = false := by
  refine (legible_scan s).error_last.2 u ?_
  rw [h, List.dropLast_append_cons]
  exact List.mem_append_left _ hu

end Token
end Restyle
