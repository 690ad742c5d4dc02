import Restyle.Proofs.Layout.Indented
import Restyle.Proofs.Loops.Basic
import Restyle.Proofs.Stability.Lines

/-!
# Indentation, carried out in place

The loop goes from line to line.  It knows where its line ends before it edits the start of the
line, and has to correct the end by hand when it puts blanks in or takes them out.  Then it walks
over the line as it is now, for the scopes that open and close there, and goes on behind the end.

* `reindent?_append`: the new blanks of a line, and where the line ends then.
* `indentLine?_append`: one line.
* `indentFrom_length`: all lines, by induction on them.
-/

namespace Restyle

open Token
open Spacing (thereIs thereIs_some)

namespace Indentation

/-- The level of a line, by whether it starts with a closing bracket. -/
def levelIf (closes : Bool) : List Nat → Nat
  | [] => 0
  | innermost :: _ => if closes then innermost else innermost + 1

theorem levelIf_eq (scopes : List Nat) (first : Token) :
    levelIf (first.kind == .endOfScope) scopes = levelOf scopes first := by
  cases scopes <;> rfl

end Indentation

namespace Buffer

/-- The first position of a range whose token is no space. -/
def firstCode? (b : Buffer) (start stop : Nat) : Option Nat :=
  (List.range' start (stop - start)).find? fun i => thereIs (!·.isSpace) (b.token? i)

/-- The levels of the scopes that are open after the tokens of a range. -/
def scopesBetween (b : Buffer) (start stop level : Nat) (scopes : List Nat) : List Nat :=
  (List.range' start (stop - start)).foldl (fun scopes i =>
    if thereIs (·.kind == .startOfScope) (b.token? i) then level :: scopes
    else if thereIs (·.kind == .endOfScope) (b.token? i) then scopes.tail
    else scopes) scopes

/-- Gives a line other blanks to start with, and answers where it ends then.  The first token that
is no space tells whether there were blanks before. -/
def reindent? (blanks : String) (b : Buffer) (lineStart lineEnd first : Nat) :
    Option (Buffer × Nat) :=
  if lineStart < first then
    if blanks.isEmpty then do
      let b ← b.remove? lineStart
      let lineEnd ← lineEnd.psub 1
      some (b, lineEnd)
    else (b.replace? lineStart ⟨.space, blanks⟩).map (·, lineEnd)
  else if blanks.isEmpty then some (b, lineEnd)
  else (b.insert? lineStart ⟨.space, blanks⟩).map (·, lineEnd + 1)

/-- Indents one line, if it is not blank, and goes through its scopes. -/
def indentLine? (indent : Indent) (b : Buffer) (lineStart lineEnd : Nat) (scopes : List Nat) :
    Option (Buffer × Nat × List Nat) :=
  match b.firstCode? lineStart lineEnd with
  | none => some (b, lineEnd, scopes)
  | some first => do
    let level := Indentation.levelIf (thereIs (·.kind == .endOfScope) (b.token? first)) scopes
    let (b, lineEnd) ← b.reindent? (indent.levels level) lineStart lineEnd first
    some (b, lineEnd, b.scopesBetween lineStart lineEnd level scopes)

/-- Indentation: line after line, until the end of one is the end of the buffer. -/
def indentFrom (indent : Indent) (b : Buffer) (lineStart : Nat) (scopes : List Nat) :
    Option Buffer := do
  let lineEnd ← b.endOfLine? lineStart
  let (b, lineEnd, scopes) ← b.indentLine? indent lineStart lineEnd scopes
  if b.tokens.length ≤ lineEnd then some b
  else b |>.indentFrom indent (lineEnd + 1) scopes
partial_fixpoint

end Buffer

namespace Loops

open Buffer

variable {front rest line tail : List Token} {t u : Token} {e : Bool} {indent : Indent}
  {scopes : List Nat}

/-! ## One line -/

theorem find?_range' (p : Token → Bool) (front us rest : List Token) (e : Bool) :
    (List.range' front.length us.length).find?
        (fun i => thereIs p (Buffer.token? ⟨front ++ (us ++ rest), e⟩ i)) =
      (us.findIdx? p).map (front.length + ·) := by
  induction us generalizing front with
  | nil => rfl
  | cons u us ih =>
    have hnext := ih (front ++ [u])
    rw [List.length_append, List.append_assoc] at hnext
    rw [List.length_cons, List.range'_succ, List.cons_append, List.find?_cons, Buffer.token?_length,
      List.head?_cons, thereIs_some, List.findIdx?_cons]
    cases p u with
    | true => rfl
    | false =>
      refine hnext.trans ?_
      rw [List.length_singleton]
      simp [Function.comp_def, Nat.add_assoc, Nat.add_comm 1]

theorem firstCode?_of_blank (h : ∀ t ∈ line, t.isSpace = true) :
    firstCode? ⟨front ++ (line ++ tail), e⟩ front.length (front.length + line.length) = none := by
  have hnone : line.findIdx? (!·.isSpace) = none := by
    simpa [List.findIdx?_eq_none_iff] using h
  rw [firstCode?, Nat.add_sub_cancel_left, find?_range', hnone]
  rfl

theorem firstCode?_append_cons {spaces : List Token} (h : ∀ t ∈ spaces, t.isSpace = true)
    (hu : u.isSpace = false) :
    firstCode? ⟨front ++ (spaces ++ u :: line ++ tail), e⟩ front.length
        (front.length + (spaces ++ u :: line).length) =
      some (front.length + spaces.length) := by
  have hnone : spaces.findIdx? (!·.isSpace) = none := by
    simpa [List.findIdx?_eq_none_iff] using h
  rw [firstCode?, Nat.add_sub_cancel_left, find?_range', List.findIdx?_append, hnone]
  simp [List.findIdx?_cons, hu]

theorem foldl_eq_scopesAfter (level : Nat) (scopes : List Nat) (us : List Token) :
    us.foldl (fun scopes t =>
      if t.kind == .startOfScope then level :: scopes
      else if t.kind == .endOfScope then scopes.tail
      else scopes) scopes = Indentation.scopesAfter level scopes us := by
  induction us generalizing scopes with
  | nil => rfl
  | cons t us ih =>
    obtain ⟨kind, text⟩ := t
    cases kind <;> exact ih _

theorem scopesBetween_append (front line tail : List Token) (e : Bool) (level : Nat)
    (scopes : List Nat) :
    scopesBetween ⟨front ++ (line ++ tail), e⟩ front.length (front.length + line.length) level
      scopes = Indentation.scopesAfter level scopes line := by
  have hmap := congrArg (List.foldl (fun scopes t =>
      if thereIs (·.kind == .startOfScope) t then level :: scopes
      else if thereIs (·.kind == .endOfScope) t then scopes.tail
      else scopes) scopes) (Buffer.map_token?_range' front line tail e)
  rw [List.foldl_map, List.foldl_map] at hmap
  rw [scopesBetween, Nat.add_sub_cancel_left, ← foldl_eq_scopesAfter]
  exact hmap

theorem withIndent_space (hs : t.isSpace = true) (blanks : String) (body : List Token) :
    Indentation.withIndent blanks (t :: body) =
      if blanks.isEmpty then body else ⟨.space, blanks⟩ :: body := by
  rw [Indentation.withIndent, if_pos hs]

theorem withIndent_not_space (hs : t.isSpace = false) (blanks : String) (body : List Token) :
    Indentation.withIndent blanks (t :: body) =
      if blanks.isEmpty then t :: body else ⟨.space, blanks⟩ :: t :: body := by
  rw [Indentation.withIndent, hs]
  rfl

/-- The blanks that a line starts with open and close no scope. -/
theorem scopesAfter_withIndent (hne : line ≠ []) (blanks : String) (level : Nat)
    (scopes : List Nat) :
    Indentation.scopesAfter level scopes (Indentation.withIndent blanks line) =
      Indentation.scopesAfter level scopes line := by
  obtain ⟨t, line, rfl⟩ := List.exists_cons_of_ne_nil hne
  cases ht : t.isSpace with
  | false =>
    rw [withIndent_not_space ht]
    split <;> rfl
  | true =>
    obtain ⟨text, rfl⟩ := exists_eq_space ht
    rw [withIndent_space ht]
    split <;> rfl

/-- A line with blanks at its start: they are removed or replaced. -/
theorem reindent?_space (hs : t.isSpace = true) (blanks : String) {first : Nat}
    (hfirst : front.length < first) :
    reindent? blanks ⟨front ++ (t :: line ++ tail), e⟩ front.length
        (front.length + (t :: line).length) first =
      some (Buffer.assign ⟨front ++ (t :: line ++ tail), e⟩
          (front ++ (Indentation.withIndent blanks (t :: line) ++ tail)),
        front.length + (Indentation.withIndent blanks (t :: line)).length) := by
  rw [reindent?, if_pos hfirst, withIndent_space hs, List.cons_append]
  cases blanks.isEmpty with
  | true =>
    have hne : front ++ (line ++ tail) ≠ front ++ t :: (line ++ tail) := fun heq =>
      List.cons_ne_self t _ (List.append_cancel_left heq).symm
    rw [if_pos rfl, if_pos rfl, Buffer.remove?_length, Buffer.assign_of_ne hne]
    rfl
  | false =>
    rw [if_neg (by decide), if_neg (by decide), Buffer.replace?_length, List.cons_append,
      ← Buffer.assign_replaced, Buffer.assign_self]
    rfl

/-- A line without blanks at its start: they are inserted if there are to be any. -/
theorem reindent?_not_space (hs : t.isSpace = false) (blanks : String) :
    reindent? blanks ⟨front ++ (t :: line ++ tail), e⟩ front.length
        (front.length + (t :: line).length) front.length =
      some (Buffer.assign ⟨front ++ (t :: line ++ tail), e⟩
          (front ++ (Indentation.withIndent blanks (t :: line) ++ tail)),
        front.length + (Indentation.withIndent blanks (t :: line)).length) := by
  rw [reindent?, if_neg (Nat.lt_irrefl _), withIndent_not_space hs]
  cases blanks.isEmpty with
  | true => rw [if_pos rfl, if_pos rfl, Buffer.assign_self]
  | false =>
    have hne : front ++ (⟨.space, blanks⟩ :: t :: line ++ tail) ≠ front ++ (t :: line ++ tail) :=
      fun heq => List.cons_ne_self _ _ (List.append_cancel_left heq)
    rw [if_neg (by decide), if_neg (by decide), Buffer.insert?_length, Buffer.assign_of_ne hne]
    rfl

theorem reindent?_append {spaces : List Token} (hspaces : ∀ s ∈ spaces, s.isSpace = true)
    (hu : u.isSpace = false) (blanks : String) :
    reindent? blanks ⟨front ++ (spaces ++ u :: line ++ tail), e⟩ front.length
        (front.length + (spaces ++ u :: line).length) (front.length + spaces.length) =
      some (Buffer.assign ⟨front ++ (spaces ++ u :: line ++ tail), e⟩
          (front ++ (Indentation.withIndent blanks (spaces ++ u :: line) ++ tail)),
        front.length + (Indentation.withIndent blanks (spaces ++ u :: line)).length) := by
  cases spaces with
  | nil => exact reindent?_not_space hu blanks
  | cons s spaces =>
    exact reindent?_space (hspaces s List.mem_cons_self) blanks (by simp)

/-- **One line, indented in place.** -/
theorem indentLine?_append (front line tail : List Token) (e : Bool) (scopes : List Nat) :
    indentLine? indent ⟨front ++ (line ++ tail), e⟩ front.length (front.length + line.length)
        scopes =
      some (Buffer.assign ⟨front ++ (line ++ tail), e⟩
          (front ++ (Indentation.indentLine indent scopes line ++ tail)),
        front.length + (Indentation.indentLine indent scopes line).length,
        Indentation.scopesAfterLine scopes line) := by
  rw [indentLine?, Indentation.indentLine, Indentation.scopesAfterLine]
  rcases all_or_first isSpace line with hall | ⟨spaces, u, body, rfl, hspaces, hu⟩
  · have hfind : line.find? (!·.isSpace) = none := by simpa using hall
    rw [firstCode?_of_blank hall, hfind, Buffer.assign_self]
  · have hfind : (spaces ++ u :: body).find? (!·.isSpace) = some u := by
      have hnone : spaces.find? (!·.isSpace) = none := by simpa using hspaces
      rw [List.find?_append, hnone, List.find?_cons_of_pos (by simp [hu])]
      rfl
    have hfirst : Buffer.token? ⟨front ++ (spaces ++ u :: body ++ tail), e⟩
        (front.length + spaces.length) = some u := by
      simp [Buffer.token?_length_add]
    rw [firstCode?_append_cons hspaces hu, hfind]
    dsimp only
    rw [hfirst, thereIs_some, Indentation.levelIf_eq, reindent?_append hspaces hu, Buffer.assign_eq]
    dsimp only [Option.bind_eq_bind, Option.bind_some]
    rw [scopesBetween_append, scopesAfter_withIndent (by simp)]

theorem endOfLine?_append (hline : ∀ t ∈ line, t.isLinebreak = false)
    (htail : ∀ t ∈ tail.head?, t.isLinebreak = true) :
    Buffer.endOfLine? ⟨front ++ (line ++ tail), e⟩ front.length =
      some (front.length + line.length) := by
  have htake : tail.takeWhile (!·.isLinebreak) = [] := by
    cases tail with
    | nil => rfl
    | cons t tail => rw [List.takeWhile_cons_of_neg (by simp [htail t rfl])]
  rw [Buffer.endOfLine?, if_pos (by simp), List.drop_left,
    List.takeWhile_append_of_pos (by simpa using hline), htake, List.append_nil]

/-- Indentation brings no linebreak into a line. -/
theorem isLinebreak_indentLine (hline : ∀ t ∈ line, t.isLinebreak = false) :
    ∀ t ∈ Indentation.indentLine indent scopes line, t.isLinebreak = false := by
  intro t ht
  rw [Indentation.indentLine] at ht
  split at ht
  · exact hline t ht
  · cases line with
    | nil => rename_i hfind; exact absurd hfind (by simp)
    | cons u line =>
      have hbody : ∀ v ∈ line, v.isLinebreak = false := fun v hv =>
        hline v (List.mem_cons_of_mem _ hv)
      have hfirst := hline u List.mem_cons_self
      cases hu : u.isSpace with
      | true =>
        rw [withIndent_space hu] at ht
        split at ht
        · exact hbody t ht
        · rcases List.mem_cons.1 ht with rfl | ht
          · rfl
          · exact hbody t ht
      | false =>
        rw [withIndent_not_space hu] at ht
        split at ht
        · exact hline t ht
        · rcases List.mem_cons.1 ht with rfl | ht
          · rfl
          · exact hline t ht

/-- **Indentation, carried out in place.** -/
theorem indentFrom_length (front rest : List Token) (e : Bool) (scopes : List Nat) :
    indentFrom indent ⟨front ++ rest, e⟩ front.length scopes =
      some (Buffer.assign ⟨front ++ rest, e⟩
        (front ++ Indentation.indentLines indent scopes rest)) := by
  induction rest using line_induction generalizing front e scopes with
  | last line hline =>
    have hend := @endOfLine?_append front line [] e hline (by simp)
    have hindent := @indentLine?_append indent front line [] e scopes
    simp only [List.append_nil] at hend hindent
    rw [indentFrom, hend, Indentation.indentLines_of_unbroken hline]
    dsimp only [Option.bind_eq_bind, Option.bind_some]
    rw [hindent, Option.bind_some, Buffer.assign_tokens, if_pos (by simp)]
  | next line lb rest hline hlb ih =>
    have hend := @endOfLine?_append front line (lb :: rest) e hline (by simpa using hlb)
    have hindent := @indentLine?_append indent front line (lb :: rest) e scopes
    rw [indentFrom, hend, Indentation.indentLines_append_cons hline hlb]
    dsimp only [Option.bind_eq_bind, Option.bind_some]
    rw [hindent, Option.bind_some, Buffer.assign_tokens, if_neg (by simp)]
    dsimp only
    have hnew := @isLinebreak_indentLine line indent scopes hline
    have hnext := fun e => ih (front ++ (Indentation.indentLine indent scopes line ++ [lb])) e
      (Indentation.scopesAfterLine scopes line)
    simp only [List.append_assoc, List.singleton_append, List.length_append,
      List.length_singleton, ← Nat.add_assoc] at hnext
    rw [Buffer.assign_eq, hnext, ← Buffer.assign_eq, Buffer.assign_assign]
    -- the first linebreak tells the two lines apart
    intro hne heq
    have hsame : Indentation.indentLine indent scopes line = line :=
      eq_of_append_cons_eq (!·.isLinebreak) (by simpa using hnew) (by simpa using hline)
        (by simpa using hlb) (by simpa using hlb) (List.append_cancel_left heq)
    exact hne (by rw [hsame])

/-- The loop on indentation is the rule. -/
theorem indent_run (style : Style) (b : Buffer) :
    b.indentFrom style.indent 0 [] = some (Rule.indent.apply style b) :=
  indentFrom_length [] b.tokens b.edited []

end Loops
end Restyle
