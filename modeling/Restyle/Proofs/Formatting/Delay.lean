import Restyle.Proofs.Formatting.Settling

/-!
# How long an outline takes to come to rest

Each pass removes the last semicolon of every line, and no more: the one before it
ends its line only in the next pass.  A run of semicolons at the end of a line goes
one by one, therefore, and a brace may have to wait for it.  In the style that puts
braces on the lines of their heads, a brace waits until nothing but linebreaks stands
before it; in the other style, until nothing stands after it on its line.

The waiting times can be read off an outline, without making a single pass.

* `Mark.toLineEnd` counts the semicolons between a token and the end of its line, if
  nothing else stands there.  `Mark.toBrace` is the time until nothing but linebreaks
  stands before a brace.
* `Mark.due` is the number of the last pass that has to do with a given token, and
  `Mark.delay` is the largest of these numbers.
* `Mark.delay_iterate_pass`: each pass makes the delay smaller by one.
* `Mark.pass_eq_self_iff_delay`: an outline is at rest exactly if its delay is zero.
-/

namespace Restyle
namespace Page
namespace Mark

open Token

/-! ## Waiting times -/

/-- A semicolon. -/
def semi (m : Mark) : Bool := Semicolons.isSemicolon m.code

/-- The number of semicolons that stand between the first token and the end of its
line, if nothing else stands there. -/
def toLineEnd : List Mark → Option Nat
  | [] => none
  | m :: ms =>
    if m.ends then some 0
    else if nextIs semi ms then (toLineEnd ms).map (· + 1)
    else none

/-- The number of passes after which the first token is gone, if it is a semicolon
with nothing but semicolons between it and the end of its line. -/
def life (ms : List Mark) : Nat := (toLineEnd ms).elim 0 (· + 1)

/-- The number of passes after which nothing but linebreaks stands before the next
opening brace, at least one, if nothing but linebreaks and semicolons that will go
stands there now.  A linebreak is in front if `broken` is set. -/
def toBrace (broken : Bool) : List Mark → Option Nat
  | [] => none
  | m :: ms =>
    if m.opens then if broken then some 0 else none
    else if m.semi then (toBrace m.ends ms).map (max (life (m :: ms)))
    else none

/-- The number of the last pass that removes the first token, if it is a semicolon,
or that changes the place of the brace after it, if it is the end of a head.  It is
zero if there is no such pass. -/
def due (allman : Bool) : List Mark → Nat
  | [] => 0
  | m :: ms =>
    if m.semi then life (m :: ms)
    else if m.code.endsBlockHead then
      if allman then if !m.ends && nextIs opens ms then life ms else 0
      else (toBrace m.ends ms).elim 0 (· + 1)
    else 0

/-- The number of passes after which an outline is at rest. -/
def delay (allman : Bool) : List Mark → Nat
  | [] => 0
  | m :: ms => max (due allman (m :: ms)) (delay allman ms)

/-! ## Semicolons -/

theorem drops_eq (m : Mark) : m.drops = (m.semi && m.ends) := rfl

/-- A semicolon that stays does not end its line. -/
theorem ends_of_semi {m : Mark} (hsemi : m.semi = true) (h : m.drops = false) : m.ends = false := by
  rwa [drops_eq, hsemi, Bool.true_and] at h

theorem dropMarks_cons {m : Mark} (h : m.drops = false) (ms : List Mark) :
    dropMarks (m :: ms) = ⟨m.code, m.ends || nextIs drops ms⟩ :: dropMarks ms := by
  rw [dropMarks, h, if_neg (by decide)]

theorem dropMarks_cons_of_drops {m : Mark} (h : m.drops = true) (ms : List Mark) :
    dropMarks (m :: ms) = dropMarks ms := by
  rw [dropMarks, h, if_pos rfl]

theorem toLineEnd_of_ends {m : Mark} (h : m.ends = true) (ms : List Mark) :
    toLineEnd (m :: ms) = some 0 := by
  rw [toLineEnd, if_pos h]

theorem toLineEnd_of_next {m : Mark} (h : m.ends = false) (ms : List Mark)
    (hnext : nextIs semi ms = true) : toLineEnd (m :: ms) = (toLineEnd ms).map (· + 1) := by
  rw [toLineEnd, h, if_neg (by decide), if_pos hnext]

theorem toLineEnd_of_not_next {m : Mark} (h : m.ends = false) (ms : List Mark)
    (hnext : nextIs semi ms = false) : toLineEnd (m :: ms) = none := by
  rw [toLineEnd, h, if_neg (by decide), if_neg (by simp [hnext])]

/-- The end of the line is beyond a token that does not end it. -/
theorem map_pred_toLineEnd {m : Mark} (h : m.ends = false) (ms : List Mark) :
    ((toLineEnd (m :: ms)).map (· - 1)).map (· + 1) = toLineEnd (m :: ms) := by
  cases hnext : nextIs semi ms with
  | true =>
    rw [toLineEnd_of_next h _ hnext]
    cases toLineEnd ms <;> simp
  | false =>
    rw [toLineEnd_of_not_next h _ hnext]
    rfl

theorem map_succ_pred (k : Option Nat) : (k.map (· + 1)).map (· - 1) = k := by
  cases k <;> simp

/-- **Each pass brings the end of a line nearer by one semicolon.** -/
theorem toLineEnd_dropMarks {m : Mark} (h : m.drops = false) (ms : List Mark) :
    toLineEnd (dropMarks (m :: ms)) = (toLineEnd (m :: ms)).map (· - 1) := by
  induction ms generalizing m with
  | nil =>
    rw [dropMarks_cons h]
    cases hends : m.ends <;> simp [toLineEnd, hends, dropMarks]
  | cons n ms ih =>
    rw [dropMarks_cons h]
    cases hends : m.ends with
    | true =>
      rw [toLineEnd_of_ends rfl, toLineEnd_of_ends hends]
      rfl
    | false =>
      cases hdrops : n.drops with
      | true =>
        -- the next semicolon goes, and its line ends here now
        have hboth := hdrops
        rw [drops_eq, Bool.and_eq_true] at hboth
        rw [toLineEnd_of_ends (by simpa using hdrops),
          toLineEnd_of_next hends (n :: ms) hboth.1, toLineEnd_of_ends hboth.2]
        rfl
      | false =>
        have hstays : (false || nextIs drops (n :: ms)) = false := by simpa using hdrops
        rw [hstays]
        cases hsemi : n.semi with
        | false =>
          rw [toLineEnd_of_not_next hends (n :: ms) hsemi, dropMarks_cons hdrops]
          exact toLineEnd_of_not_next rfl (_ :: _) hsemi
        | true =>
          -- the next semicolon stays, and the end of the line is beyond it
          have hnext : nextIs semi (dropMarks (n :: ms)) = true := by
            rw [dropMarks_cons hdrops]
            exact hsemi
          rw [toLineEnd_of_next hends (n :: ms) hsemi, toLineEnd_of_next rfl _ hnext, ih hdrops,
            map_succ_pred, map_pred_toLineEnd (ends_of_semi hsemi hdrops)]

/-- A semicolon that stays has one pass less to live. -/
theorem life_dropMarks {m : Mark} (hends : m.ends = false) (h : m.drops = false) (ms : List Mark) :
    life (dropMarks (m :: ms)) = life (m :: ms) - 1 := by
  rw [life, life, toLineEnd_dropMarks h]
  cases hnext : nextIs semi ms with
  | true =>
    rw [toLineEnd_of_next hends _ hnext, map_succ_pred]
    cases toLineEnd ms <;> rfl
  | false =>
    rw [toLineEnd_of_not_next hends _ hnext]
    rfl

theorem toBrace_of_opens {m : Mark} (h : m.opens = true) (broken : Bool) (ms : List Mark) :
    toBrace broken (m :: ms) = if broken then some 0 else none := by
  rw [toBrace, if_pos h]

theorem opens_of_semi {m : Mark} (h : m.semi = true) : m.opens = false := by
  simp [opens, Token.opens, kind_of_isDelimiter h]

theorem semi_of_opens {m : Mark} (h : m.opens = true) : m.semi = false := by
  by_contra hsemi
  exact absurd (opens_of_semi (by simpa using hsemi)) (by simp [h])

theorem toBrace_of_semi {m : Mark} (h : m.semi = true) (broken : Bool) (ms : List Mark) :
    toBrace broken (m :: ms) = (toBrace m.ends ms).map (max (life (m :: ms))) := by
  rw [toBrace, if_neg (by simp [opens_of_semi h]), if_pos h]

theorem toBrace_of_other {m : Mark} (hopens : m.opens = false) (hsemi : m.semi = false)
    (broken : Bool) (ms : List Mark) : toBrace broken (m :: ms) = none := by
  rw [toBrace, if_neg (by simp [hopens]), if_neg (by simp [hsemi])]

/-- **Each pass brings a brace nearer by one.** -/
theorem toBrace_dropMarks (broken : Bool) (ms : List Mark) :
    toBrace (broken || nextIs drops ms) (dropMarks ms) = (toBrace broken ms).map (· - 1) := by
  induction ms generalizing broken with
  | nil => rfl
  | cons m ms ih =>
    rw [nextIs_cons]
    cases hdrops : m.drops with
    | true =>
      have hboth := hdrops
      rw [drops_eq, Bool.and_eq_true] at hboth
      have hrest := ih true
      rw [Bool.true_or] at hrest
      rw [Bool.or_true, dropMarks_cons_of_drops hdrops, hrest, toBrace_of_semi hboth.1, hboth.2,
        life, toLineEnd_of_ends hboth.2]
      cases toBrace true ms with
      | none => rfl
      | some k =>
        simp only [Option.map_some, Option.elim_some, Option.some.injEq]
        omega
    | false =>
      rw [Bool.or_false, dropMarks_cons hdrops]
      cases hopens : m.opens with
      | true =>
        rw [toBrace_of_opens hopens, toBrace_of_opens (by exact hopens)]
        cases broken <;> rfl
      | false =>
        cases hsemi : m.semi with
        | false =>
          rw [toBrace_of_other hopens hsemi, toBrace_of_other (by exact hopens) (by exact hsemi)]
          rfl
        | true =>
          have hlife := life_dropMarks (ends_of_semi hsemi hdrops) hdrops ms
          rw [dropMarks_cons hdrops] at hlife
          rw [toBrace_of_semi hsemi, toBrace_of_semi (by exact hsemi), hlife, ih m.ends]
          cases toBrace m.ends ms with
          | none => rfl
          | some k =>
            simp only [Option.map_some, Option.some.injEq]
            omega

/-! ## Braces -/

theorem endsBlockHead_of_semi {m : Mark} (h : m.semi = true) : m.code.endsBlockHead = false := by
  simp [endsBlockHead, kind_of_isDelimiter h]

theorem endsBlockHead_of_opens {m : Mark} (h : m.opens = true) : m.code.endsBlockHead = false := by
  simp [endsBlockHead, kind_of_opens h]

/-- The rule on braces keeps every token, and all ends of lines but those after a
head. -/
theorem exists_braceMarks_cons (allman : Bool) (m : Mark) (ms : List Mark) :
    ∃ ends, braceMarks allman (m :: ms) = ⟨m.code, ends⟩ :: braceMarks allman ms ∧
      (m.code.endsBlockHead = false → ends = m.ends) := by
  cases allman with
  | true => exact ⟨_, rfl, fun h => by simp [h]⟩
  | false => exact ⟨_, rfl, fun h => by simp [h]⟩

theorem braceMarks_cons_of_not_head {m : Mark} (h : m.code.endsBlockHead = false) (allman : Bool)
    (ms : List Mark) : braceMarks allman (m :: ms) = m :: braceMarks allman ms := by
  obtain ⟨ends, hcons, hends⟩ := exists_braceMarks_cons allman m ms
  rw [hcons, hends h]

theorem nextIs_semi_braceMarks (allman : Bool) (ms : List Mark) :
    nextIs semi (braceMarks allman ms) = nextIs semi ms := by
  cases ms with
  | nil => cases allman <;> rfl
  | cons m ms =>
    obtain ⟨ends, hcons, -⟩ := exists_braceMarks_cons allman m ms
    rw [hcons]
    rfl

/-- Moving braces does not change what stands between a token and the end of its
line. -/
theorem toLineEnd_braceMarks (allman : Bool) (m : Mark) (ms : List Mark) :
    toLineEnd (m :: braceMarks allman ms) = toLineEnd (m :: ms) := by
  induction ms generalizing m with
  | nil => cases allman <;> rfl
  | cons n ms ih =>
    cases hends : m.ends with
    | true => rw [toLineEnd_of_ends hends, toLineEnd_of_ends hends]
    | false =>
      have hnext := nextIs_semi_braceMarks allman (n :: ms)
      cases hsemi : n.semi with
      | false =>
        rw [toLineEnd_of_not_next hends (n :: ms) hsemi,
          toLineEnd_of_not_next hends _ (hnext.trans hsemi)]
      | true =>
        rw [toLineEnd_of_next hends (n :: ms) hsemi,
          toLineEnd_of_next hends _ (hnext.trans hsemi),
          braceMarks_cons_of_not_head (endsBlockHead_of_semi hsemi), ih n]

theorem life_braceMarks (allman : Bool) (m : Mark) (ms : List Mark) :
    life (m :: braceMarks allman ms) = life (m :: ms) := by
  rw [life, life, toLineEnd_braceMarks]

/-- Moving braces does not change how long they wait. -/
theorem toBrace_braceMarks (allman broken : Bool) (ms : List Mark) :
    toBrace broken (braceMarks allman ms) = toBrace broken ms := by
  induction ms generalizing broken with
  | nil => cases allman <;> rfl
  | cons m ms ih =>
    cases hopens : m.opens with
    | true =>
      rw [braceMarks_cons_of_not_head (endsBlockHead_of_opens hopens), toBrace_of_opens hopens,
        toBrace_of_opens hopens]
    | false =>
      cases hsemi : m.semi with
      | true =>
        rw [braceMarks_cons_of_not_head (endsBlockHead_of_semi hsemi), toBrace_of_semi hsemi,
          toBrace_of_semi hsemi, ih, life_braceMarks]
      | false =>
        obtain ⟨ends, hcons, -⟩ := exists_braceMarks_cons allman m ms
        rw [hcons, toBrace_of_other hopens hsemi,
          toBrace_of_other (by exact hopens) (by exact hsemi)]

/-- A semicolon that a brace waits for will go. -/
theorem life_pos_of_toBrace {n : Mark} {ms : List Mark} {k : Nat}
    (h : toBrace n.ends ms = some k) : 0 < life (n :: ms) := by
  induction ms generalizing n k with
  | nil => exact absurd h (by simp [toBrace])
  | cons m ms ih =>
    cases hends : n.ends with
    | true =>
      rw [life, toLineEnd_of_ends hends]
      exact Nat.one_pos
    | false =>
      rw [hends] at h
      cases hopens : m.opens with
      | true => exact absurd h (by simp [toBrace_of_opens hopens])
      | false =>
        cases hsemi : m.semi with
        | false => exact absurd h (by simp [toBrace_of_other hopens hsemi])
        | true =>
          rw [toBrace_of_semi hsemi, Option.map_eq_some_iff] at h
          obtain ⟨j, hj, -⟩ := h
          have hlife := ih hj
          rw [life] at hlife
          rw [life, toLineEnd_of_next hends (m :: ms) hsemi]
          cases hend : toLineEnd (m :: ms) with
          | none => exact absurd hlife (by simp [hend])
          | some l => exact Nat.succ_pos _

/-! ## What a pass does to the delay -/

theorem due_of_semi {m : Mark} (h : m.semi = true) (allman : Bool) (ms : List Mark) :
    due allman (m :: ms) = life (m :: ms) := by
  rw [due, if_pos h]

theorem semi_of_head {m : Mark} (h : m.code.endsBlockHead = true) : m.semi = false := by
  by_contra hsemi
  exact absurd (endsBlockHead_of_semi (by simpa using hsemi)) (by simp [h])

theorem due_of_head_join {m : Mark} (h : m.code.endsBlockHead = true) (ms : List Mark) :
    due false (m :: ms) = (toBrace m.ends ms).elim 0 (· + 1) := by
  rw [due, if_neg (by simp [semi_of_head h]), if_pos h, if_neg (by decide)]

theorem due_of_head_wrap {m : Mark} (h : m.code.endsBlockHead = true) (ms : List Mark) :
    due true (m :: ms) = if !m.ends && nextIs opens ms then life ms else 0 := by
  rw [due, if_neg (by simp [semi_of_head h]), if_pos h, if_pos rfl]

theorem due_of_other {m : Mark} (hsemi : m.semi = false) (hhead : m.code.endsBlockHead = false)
    (allman : Bool) (ms : List Mark) : due allman (m :: ms) = 0 := by
  rw [due, if_neg (by simp [hsemi]), if_neg (by simp [hhead])]

theorem drops_of_not_semi {m : Mark} (h : m.semi = false) : m.drops = false := by
  rw [drops_eq, h, Bool.false_and]

/-- A brace on the line of its head has come to rest; any other brace is one pass
nearer. -/
theorem due_pass_join {m : Mark} (h : m.code.endsBlockHead = true) (ms : List Mark) :
    due false (dropMarks (braceMarks false (m :: ms))) = due false (m :: ms) - 1 := by
  have hbrace : braceMarks false (m :: ms) =
      ⟨m.code, m.ends && !(m.code.endsBlockHead && nextIs opens ms)⟩ :: braceMarks false ms := rfl
  have hsemi := semi_of_head h
  rw [hbrace, dropMarks_cons (drops_of_not_semi (by exact hsemi)), due_of_head_join (by exact h),
    due_of_head_join h, toBrace_dropMarks, toBrace_braceMarks, h, Bool.true_and]
  cases ms with
  | nil => rfl
  | cons n ms =>
    rw [nextIs_cons]
    cases hopens : n.opens with
    | true =>
      rw [toBrace_of_opens hopens, toBrace_of_opens hopens]
      cases m.ends <;> rfl
    | false =>
      rw [Bool.not_false, Bool.and_true]
      cases hn : n.semi with
      | false =>
        rw [toBrace_of_other hopens hn]
        rfl
      | true =>
        -- the semicolon in between is still there, so that the time is not over yet
        rw [toBrace_of_semi hn]
        cases hrest : toBrace n.ends ms with
        | none => rfl
        | some k =>
          have hlife : 0 < life (n :: ms) := life_pos_of_toBrace hrest
          simp only [Option.map_some, Option.elim_some]
          omega

/-- A brace on a line of its own has come to rest; a brace that semicolons follow is
one pass nearer. -/
theorem due_pass_wrap {m : Mark} (h : m.code.endsBlockHead = true) (ms : List Mark) :
    due true (dropMarks (braceMarks true (m :: ms))) = due true (m :: ms) - 1 := by
  have hbrace : braceMarks true (m :: ms) =
      ⟨m.code, m.ends || (m.code.endsBlockHead && nextIs (fun n => n.opens && n.ends) ms)⟩ ::
        braceMarks true ms := rfl
  have hsemi := semi_of_head h
  rw [hbrace, dropMarks_cons (drops_of_not_semi (by exact hsemi)), due_of_head_wrap (by exact h),
    due_of_head_wrap h, h, Bool.true_and]
  cases hends : m.ends with
  | true => rfl
  | false =>
    cases ms with
    | nil => rfl
    | cons n ms =>
      cases hopens : n.opens with
      | true =>
        have hdrops : n.drops = false := drops_of_not_semi (semi_of_opens hopens)
        have hnext : nextIs opens (dropMarks (n :: braceMarks true ms)) = true := by
          rw [dropMarks_cons hdrops]
          exact hopens
        rw [braceMarks_cons_of_not_head (endsBlockHead_of_opens hopens)]
        cases hnends : n.ends with
        | true => simp [hopens, hnends, life, toLineEnd_of_ends hnends]
        | false =>
          have hlife := life_dropMarks hnends hdrops (braceMarks true ms)
          rw [life_braceMarks] at hlife
          simp [hopens, hnends, hdrops, hnext, hlife]
      | false =>
        obtain ⟨ends, hn, -⟩ := exists_braceMarks_cons true n ms
        rw [hn]
        -- if the next token goes, its line ends at the head
        cases hdrops : drops ⟨n.code, ends⟩ with
        | true => simp [hopens, hdrops]
        | false =>
          have hnext : nextIs opens (dropMarks (⟨n.code, ends⟩ :: braceMarks true ms)) = false := by
            rw [dropMarks_cons hdrops]
            exact hopens
          simp [hopens, hnext]

theorem due_pass {m : Mark} (h : m.semi = false) (allman : Bool) (ms : List Mark) :
    due allman (dropMarks (braceMarks allman (m :: ms))) = due allman (m :: ms) - 1 := by
  cases hhead : m.code.endsBlockHead with
  | true =>
    cases allman with
    | true => exact due_pass_wrap hhead ms
    | false => exact due_pass_join hhead ms
  | false =>
    rw [braceMarks_cons_of_not_head hhead, dropMarks_cons (drops_of_not_semi h),
      due_of_other h hhead, due_of_other (by exact h) (by exact hhead)]

/-- **Each pass makes the delay smaller by one.** -/
theorem delay_dropMarks_braceMarks (allman : Bool) (ms : List Mark) :
    delay allman (dropMarks (braceMarks allman ms)) = delay allman ms - 1 := by
  induction ms with
  | nil => cases allman <;> rfl
  | cons m ms ih =>
    rw [delay]
    cases hsemi : m.semi with
    | false =>
      obtain ⟨ends, hcons, -⟩ := exists_braceMarks_cons allman m ms
      have hdue := due_pass hsemi allman ms
      rw [hcons, dropMarks_cons (drops_of_not_semi (by exact hsemi))] at hdue ⊢
      rw [delay, hdue, ih]
      omega
    | true =>
      rw [braceMarks_cons_of_not_head (endsBlockHead_of_semi hsemi), due_of_semi hsemi]
      cases hdrops : m.drops with
      | true =>
        have hends : m.ends = true := by
          rwa [drops_eq, hsemi, Bool.true_and] at hdrops
        rw [dropMarks_cons_of_drops hdrops, ih, life, toLineEnd_of_ends hends, Option.elim_some]
        omega
      | false =>
        have hlife := life_dropMarks (ends_of_semi hsemi hdrops) hdrops (braceMarks allman ms)
        rw [life_braceMarks] at hlife
        rw [dropMarks_cons hdrops] at hlife ⊢
        rw [delay, due_of_semi (by exact hsemi), hlife, ih]
        omega

theorem ends_wrap_of_due {m : Mark} {ms : List Mark} (hhead : m.code.endsBlockHead = true)
    (h : due true (m :: ms) = 0) :
    (m.ends || (m.code.endsBlockHead && nextIs (fun n => n.opens && n.ends) ms)) = m.ends := by
  rw [due_of_head_wrap hhead] at h
  cases hends : m.ends with
  | true => rfl
  | false =>
    cases ms with
    | nil => simp
    | cons n ms =>
      rw [nextIs_cons]
      cases hopens : n.opens with
      | false => simp
      | true =>
        cases hn : n.ends with
        | false => simp
        | true => simp [hends, hopens, life, toLineEnd_of_ends hn] at h

theorem ends_join_of_due {m : Mark} {ms : List Mark} (hhead : m.code.endsBlockHead = true)
    (h : due false (m :: ms) = 0) :
    (m.ends && !(m.code.endsBlockHead && nextIs opens ms)) = m.ends := by
  rw [due_of_head_join hhead] at h
  cases hends : m.ends with
  | false => rfl
  | true =>
    cases ms with
    | nil => simp
    | cons n ms =>
      rw [nextIs_cons]
      cases hopens : n.opens with
      | false => simp
      | true => simp [hends, toBrace_of_opens hopens] at h

/-- An outline without delay has no brace to move. -/
theorem braceMarks_eq_self {allman : Bool} {ms : List Mark} (h : delay allman ms = 0) :
    braceMarks allman ms = ms := by
  induction ms with
  | nil => cases allman <;> rfl
  | cons m ms ih =>
    rw [delay, Nat.max_eq_zero_iff] at h
    cases hhead : m.code.endsBlockHead with
    | false => rw [braceMarks_cons_of_not_head hhead, ih h.2]
    | true =>
      cases allman with
      | true => exact congrArg₂ (⟨m.code, ·⟩ :: ·) (ends_wrap_of_due hhead h.1) (ih h.2)
      | false => exact congrArg₂ (⟨m.code, ·⟩ :: ·) (ends_join_of_due hhead h.1) (ih h.2)

/-- An outline without delay has no semicolon to drop. -/
theorem dropMarks_eq_self_of_delay {allman : Bool} {ms : List Mark} (h : delay allman ms = 0) :
    dropMarks ms = ms := by
  refine dropMarks_eq_self ?_
  induction ms with
  | nil => rfl
  | cons m ms ih =>
    rw [delay, Nat.max_eq_zero_iff] at h
    have hdrops : m.drops = false := by
      rw [drops_eq]
      cases hsemi : m.semi with
      | false => rfl
      | true =>
        cases hends : m.ends with
        | false => rfl
        | true =>
          rw [due_of_semi hsemi, life, toLineEnd_of_ends hends] at h
          exact absurd h.1 (by simp)
    rw [dropMarks_cons hdrops, List.length_cons, List.length_cons, ih h.2]

/-- **An outline is at rest exactly if its delay is zero.** -/
theorem pass_eq_self_iff_delay {style : Style} (hex : style.experimental = true) (ms : List Mark) :
    pass style ms = ms ↔ delay style.allman ms = 0 := by
  constructor
  · intro h
    have hdelay := delay_dropMarks_braceMarks style.allman ms
    rw [pass, hex] at h
    rw [show dropMarks (braceMarks style.allman ms) = ms from h] at hdelay
    omega
  · intro h
    exact (pass_eq_self_iff style ms).2
      ⟨braceMarks_eq_self h, fun _ => dropMarks_eq_self_of_delay h⟩

/-- **The delay after some passes.** -/
theorem delay_iterate_pass {style : Style} (hex : style.experimental = true) (n : Nat)
    (ms : List Mark) : delay style.allman ((pass style)^[n] ms) = delay style.allman ms - n := by
  induction n generalizing ms with
  | zero => rfl
  | succ n ih =>
    have hpass : pass style ms = dropMarks (braceMarks style.allman ms) := by
      rw [pass, hex]
      rfl
    rw [Function.iterate_succ_apply, ih, hpass, delay_dropMarks_braceMarks]
    omega

end Mark
end Page
end Restyle
