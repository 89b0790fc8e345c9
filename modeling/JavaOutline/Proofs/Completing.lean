import JavaOutline.Proofs.Completed
import JavaOutline.Proofs.Lexical.Finishing

/-!
# JavaOutline.Proofs.Completing

Every text can be completed to a statement.

The parentheses that are open can be closed, and a brace then ends the
statement, wherever reading stands between two characters
(`OpenStatement.completes_closers`).  A step that leaves something of the text
does not depend on what follows, and one that runs into the end can be
finished (`OpenStatement.step_local_or_completes`).  A statement that already
ran into the end takes what follows with it
(`OpenStatement.completes_append_blank`).  So some text can always be added
with which a statement ends (`exists_scan_append`).
-/

namespace JavaOutline

open Text

namespace OpenStatement

/-! ## Closing what is open -/

/-- As many closing parentheses as are open, and a brace. -/
def closers (s : OpenStatement) : List Char := List.replicate s.parentheses.toNat ')' ++ ['\x7d']

/-- Whether a statement ends with a text. -/
def Completes (s : OpenStatement) (text : List Char) : Prop :=
  ∃ statement, s.read text = some (statement, [])

/-- Whether a text begins with a character that closes something. -/
def BeginsClosing (text : List Char) : Prop :=
  ∃ tail, text = ')' :: tail ∨ text = '\x7d' :: tail

variable {s : OpenStatement} {c : Char} {t z : List Char}

theorem beginsClosing_replicate (n : Nat) : BeginsClosing (List.replicate n ')' ++ ['\x7d']) := by
  cases n with
  | zero => exact ⟨[], .inr rfl⟩
  | succ n => exact ⟨List.replicate n ')' ++ ['\x7d'], .inl (by rw [List.replicate_succ]; rfl)⟩

theorem BeginsClosing.ne_nil (h : BeginsClosing z) : z ≠ [] := by
  obtain ⟨tail, rfl | rfl⟩ := h <;> simp

theorem BeginsClosing.skipBlanks_eq (h : BeginsClosing z) : skipBlanks z = z := by
  obtain ⟨tail, rfl | rfl⟩ := h <;> exact skipBlanks_cons_of_not_isBlank (by decide) tail

theorem BeginsClosing.skipGaps_eq (h : BeginsClosing z) : skipGaps z = z := by
  obtain ⟨tail, rfl | rfl⟩ := h <;> exact skipGaps_cons_of_code (by decide) (by decide) tail

theorem boundary_closing (hc : c = ')' ∨ c = '\x7d') (s : OpenStatement) (tail : List Char) :
    s.boundary c tail = (s.endToken, c :: tail) := by
  rcases hc with rfl | rfl <;> rw [boundary, if_neg (by decide), if_neg (by simp)]

theorem parentheses_closeParenthesis (s : OpenStatement) (ahead : List Char) :
    (s.closeParenthesis ahead).parentheses = s.parentheses - 1 := by
  rw [closeParenthesis]
  split <;> rfl

theorem completes_closers (s : OpenStatement) : s.Completes s.closers := by
  rw [closers]
  induction hn : s.parentheses.toNat generalizing s with
  | zero =>
      have hopen : ¬ 0 < s.parentheses := by omega
      refine ⟨s.finish .closeBrace, ?_⟩
      rw [List.replicate_zero, List.nil_append, read_cons,
        step_mayEnd (by decide) (.inr (by decide)), readEnding, if_neg (by simp), if_neg hopen,
        if_neg (by decide), if_neg (by decide), if_pos rfl]
  | succ n ih =>
      have hbegins := beginsClosing_replicate n
      -- A token that is open is ended by the parenthesis first.
      have hempty : ∀ u : OpenStatement, u.current = "" → u.parentheses.toNat = n + 1 →
          u.Completes (List.replicate (n + 1) ')' ++ ['\x7d']) := by
        intro u hcurrent hu
        rw [List.replicate_succ, List.cons_append, Completes, read_closeParenthesis hcurrent,
          hbegins.skipBlanks_eq]
        exact ih _ (by rw [parentheses_closeParenthesis]; omega)
      by_cases hcurrent : s.current = ""
      · exact hempty s hcurrent hn
      · have hended := hempty s.endToken (current_endToken s) (by rwa [parentheses_endToken])
        rw [List.replicate_succ, List.cons_append, Completes] at hended ⊢
        rwa [read_interrupting hcurrent (by decide), boundary_closing (.inl rfl)]

theorem beginsClosing_closers (s : OpenStatement) : BeginsClosing s.closers :=
  beginsClosing_replicate _

/-- What closes depends on the open parentheses only. -/
theorem completes_closers_of_parentheses_eq {u : OpenStatement}
    (h : u.parentheses = s.parentheses) : u.Completes s.closers := by
  have hclosers : s.closers = u.closers := by rw [closers, closers, h]
  rw [hclosers]
  exact completes_closers u

/-- Blanks may stand in front of what closes. -/
theorem completes_blanks_closers {u : OpenStatement} (h : u.parentheses = s.parentheses)
    {run : List Char} (hrun : AllBlank run) : u.Completes (run ++ s.closers) := by
  by_cases hne : run = []
  · rw [hne, List.nil_append]
    exact completes_closers_of_parentheses_eq h
  · have hended := completes_closers_of_parentheses_eq ((parentheses_endToken u).trans h)
    obtain ⟨tail, hcloser⟩ := beginsClosing_closers s
    obtain ⟨c, hc, hclosers⟩ : ∃ c, (c = ')' ∨ c = '\x7d') ∧ s.closers = c :: tail := by
      rcases hcloser with h | h
      · exact ⟨_, .inl rfl, h⟩
      · exact ⟨_, .inr rfl, h⟩
    have hcode : isBlank c = false ∧ c ≠ '/' := by rcases hc with rfl | rfl <;> decide
    rw [hclosers] at hended ⊢
    rwa [Completes, read_blanks_append u hrun hne hcode.1 hcode.2, boundary_closing hc]

/-- So may characters of a word. -/
theorem completes_plain_closers {u : OpenStatement} (h : u.parentheses = s.parentheses)
    {word : List Char} (hword : ∀ c ∈ word, isPlain c = true) :
    u.Completes (word ++ s.closers) := by
  rw [Completes, read_plain_append hword]
  exact completes_closers_of_parentheses_eq h

/-! ## Steps -/

theorem parentheses_joint (s : OpenStatement) (c : Char) (rest : List Char) :
    (s.joint c rest).1.parentheses = s.parentheses := by
  have hcount := parentheses_countAngle s c
  dsimp only [joint]
  split
  · exact (parentheses_endToken _).trans hcount
  split
  · exact hcount
  split
  · exact (parentheses_endToken _).trans hcount
  · exact (parentheses_endToken _).trans hcount

/-- Of blanks in front of what closes, blanks remain. -/
theorem joint_closing (ht : AllBlank t) (hz : BeginsClosing z) (s : OpenStatement) (c : Char) :
    ∃ run, AllBlank run ∧ (s.joint c (t ++ z)).2 = run ++ z := by
  have hskip : skipBlanks (t ++ z) = z := by rw [skipBlanks_blanks_append ht, hz.skipBlanks_eq]
  have hnil : AllBlank [] := fun d hd => by cases hd
  dsimp only [joint]
  split
  · exact ⟨[], hnil, hskip⟩
  split
  · exact ⟨[], hnil, hskip⟩
  split
  · exact ⟨t, ht, rfl⟩
  · exact ⟨t, ht, rfl⟩

/-- A boundary does not depend on what follows, or some text follows with which
the statement ends. -/
theorem boundary_local_or_completes (s : OpenStatement) (c : Char) (t : List Char) :
    (∀ y, s.boundary c (t ++ y) = ((s.boundary c t).1, (s.boundary c t).2 ++ y)) ∨
      ∃ other, other ≠ [] ∧
        (s.boundary c (t ++ other)).1.Completes (s.boundary c (t ++ other)).2 := by
  unfold boundary
  split
  · by_cases ht : skipBlanks t = []
    · have hclosing := beginsClosing_closers s
      obtain ⟨run, hrun, hjoint⟩ := joint_closing (List.dropWhile_eq_nil_iff.1 ht) hclosing s c
      refine .inr ⟨s.closers, hclosing.ne_nil, ?_⟩
      rw [hjoint]
      exact completes_blanks_closers (parentheses_joint s c _) hrun
    · exact .inl fun y => joint_append_of_ne_nil ht y
  split
  · by_cases hrest : afterBracket '(' ')' 0 t = []
    · obtain ⟨more, hmore⟩ := finishable_afterBracket (by decide) (by decide) (by decide) 0 t hrest
      have hne := (beginsClosing_closers s.endToken).ne_nil
      refine .inr ⟨more ++ s.endToken.closers, by simp [hne], ?_⟩
      rw [hmore _ hne]
      exact completes_closers _
    · exact .inl fun y => by rw [(local_afterBracket '(' ')' 0).append_of_ne_nil hrest]
  · exact .inl fun y => rfl

theorem closeParenthesis_local_or_completes (s : OpenStatement) (t : List Char) :
    (∀ y, skipBlanks (t ++ y) = skipBlanks t ++ y ∧
      s.closeParenthesis (skipBlanks t ++ y) = s.closeParenthesis (skipBlanks t)) ∨
      ∃ other, other ≠ [] ∧
        (s.closeParenthesis (skipBlanks (t ++ other))).Completes (skipBlanks (t ++ other)) := by
  by_cases hplain : ∀ c ∈ skipBlanks t, isPlain c = true
  · -- The word `throws` may be coming, but the same parentheses are open then.
    have hsame : ∀ ahead ahead', (s.closeParenthesis ahead).parentheses =
        (s.closeParenthesis ahead').parentheses := fun ahead ahead' => by
      rw [parentheses_closeParenthesis, parentheses_closeParenthesis]
    have hclosing := beginsClosing_closers (s.closeParenthesis [])
    have hskip : skipBlanks (t ++ (s.closeParenthesis []).closers) =
        skipBlanks t ++ (s.closeParenthesis []).closers := by
      by_cases hne : skipBlanks t = []
      · rw [skipBlanks_blanks_append (List.dropWhile_eq_nil_iff.1 hne), hclosing.skipBlanks_eq, hne,
          List.nil_append]
      · exact local_skipBlanks.append_of_ne_nil hne _
    refine .inr ⟨_, hclosing.ne_nil, ?_⟩
    rw [hskip]
    exact completes_plain_closers (hsame _ _) hplain
  · have hne : skipBlanks t ≠ [] := by
      intro hnil
      rw [hnil] at hplain
      exact hplain fun c hc => by cases hc
    have hnot : ∃ c ∈ skipBlanks t, isPlain c = false := by simpa using hplain
    exact .inl fun y => ⟨local_skipBlanks.append_of_ne_nil hne y,
      closeParenthesis_append_of_not_isPlain hnot s y⟩

theorem readEnding_local_or_completes {u : OpenStatement} {next : List Char}
    (h : s.readEnding c t = .more u next) :
    (∀ y, s.readEnding c (t ++ y) = .more u (next ++ y)) ∨
      ∃ other, other ≠ [] ∧ s.readEnding c (t ++ other) = .more u u.closers := by
  cases s.readEnding_cases c with
  | colon _ heq | enclosed heq =>
      rw [heq] at h
      cases h
      exact .inl fun y => heq _
  | constantBody _ heq =>
      rw [heq] at h
      cases h
      by_cases hrest : afterBracket '\x7b' '\x7d' 0 t = []
      · obtain ⟨more, hmore⟩ :=
          finishable_afterBracket (by decide) (by decide) (by decide) 0 t hrest
        have hne := (beginsClosing_closers s.reopen).ne_nil
        exact .inr ⟨more ++ s.reopen.closers, by simp [hne], by rw [heq, hmore _ hne]⟩
      · exact .inl fun y => by rw [heq, (local_afterBracket _ _ _).append_of_ne_nil hrest]
  | initializer _ heq =>
      rw [heq] at h
      cases hend : initializerEnd .none t with
      | comma after =>
          rw [hend] at h
          cases h
          have hbefore : (initializerEnd .none (t ++ [])).Before [] := by
            rw [List.append_nil, hend]
            exact List.length_pos_iff.2 (ne_nil_of_initializerEnd_eq_comma hend)
          refine .inl fun y => ?_
          rw [heq, initializerEnd_append hbefore, hend]
          rfl
      | semicolon | endOfText =>
          rw [hend] at h
          cases h
  | block _ heq | closeBrace _ heq | label _ heq | semicolon heq =>
      rw [heq] at h
      cases h

/-- What gaps lead to does not depend on what follows, or some text follows
with which the statement ends. -/
theorem afterGaps_local_or_completes {u : OpenStatement} {next : List Char}
    (hgap : ∀ rest, s.step c rest = s.afterGaps (skipGaps (c :: rest)))
    (h : s.afterGaps (skipGaps (c :: t)) = .more u next) :
    (∀ y, s.afterGaps (skipGaps (c :: (t ++ y))) = .more u (next ++ y)) ∨
      ∃ other, other ≠ [] ∧ s.Completes (c :: (t ++ other)) := by
  cases hgaps : skipGaps (c :: t) with
  | nil =>
      rw [hgaps] at h
      cases h
  | cons d tail =>
      rw [hgaps] at h
      cases h
      have hlocal : ∀ y, skipGaps (c :: (t ++ y)) = d :: (tail ++ y) := by
        intro y
        rw [← List.cons_append, local_skipGaps.append_of_ne_nil (by simp [hgaps]), hgaps]
        rfl
      rcases boundary_local_or_completes s d tail with hall | ⟨other, hne, hcompletes⟩
      · exact .inl fun y => by rw [hlocal, afterGaps, hall]
      · refine .inr ⟨other, hne, ?_⟩
        rw [Completes, read_cons, hgap, hlocal]
        exact hcompletes

/-- A step that goes on does not depend on what follows, or some text follows
with which the statement ends. -/
theorem step_local_or_completes {u : OpenStatement} {next : List Char}
    (h : s.step c t = .more u next) :
    (∀ y, s.step c (t ++ y) = .more u (next ++ y)) ∨
      ∃ other, other ≠ [] ∧ s.Completes (c :: (t ++ other)) := by
  cases s.step_cases c with
  | gap _ heq =>
      rw [heq] at h
      exact (afterGaps_local_or_completes heq h).imp_left fun hall y => (heq _).trans (hall y)
  | boundary _ heq =>
      rw [heq] at h
      cases h
      rcases boundary_local_or_completes s c t with hall | ⟨other, hne, hcompletes⟩
      · exact .inl fun y => by rw [heq, hall]
      · refine .inr ⟨other, hne, ?_⟩
        rw [Completes, read_cons, heq]
        exact hcompletes
  | quote hquote heq =>
      rw [heq] at h
      cases h
      by_cases hrest : afterQuote c t = []
      · obtain ⟨more, hmore⟩ := finishable_afterQuote hquote t hrest
        have hne := (beginsClosing_closers s).ne_nil
        refine .inr ⟨more ++ s.closers, by simp [hne], ?_⟩
        rw [Completes, read_cons, heq, hmore _ hne]
        exact completes_closers s
      · exact .inl fun y => by rw [heq, (local_afterQuote c).append_of_ne_nil hrest]
  | closeParenthesis _ _ heq =>
      rw [heq] at h
      cases h
      rcases closeParenthesis_local_or_completes s t with hall | ⟨other, hne, hcompletes⟩
      · exact .inl fun y => by rw [heq, (hall y).1, (hall y).2]
      · refine .inr ⟨other, hne, ?_⟩
        rw [Completes, read_cons, heq]
        exact hcompletes
  | ending _ _ heq =>
      rw [heq] at h
      rcases readEnding_local_or_completes h with hall | ⟨other, hne, hending⟩
      · exact .inl fun y => (heq _).trans (hall y)
      · refine .inr ⟨other, hne, ?_⟩
        rw [Completes, read_cons, heq, hending]
        exact completes_closers u
  | openParenthesis _ _ heq | angle _ heq | character _ _ _ heq =>
      rw [heq] at h
      cases h
      exact .inl fun y => heq _

/-! ## Statements -/

theorem readEnding_ne_cutOff (s : OpenStatement) (c : Char) (rest : List Char) :
    s.readEnding c rest ≠ .cutOff := by
  intro h
  cases s.readEnding_cases c with
  | initializer _ heq =>
      rw [heq] at h
      cases hend : initializerEnd .none rest <;> rw [hend] at h <;> cases h
  | colon _ heq | enclosed heq | constantBody _ heq | block _ heq | closeBrace _ heq | label _ heq
  | semicolon heq =>
      rw [heq] at h
      cases h

/-- Nothing but gaps is left where reading is cut off. -/
theorem skipGaps_of_step_eq_cutOff (h : s.step c t = .cutOff) :
    (isBlank c = true ∨ c = '/') ∧ skipGaps (c :: t) = [] := by
  cases s.step_cases c with
  | gap hgap heq =>
      rw [heq] at h
      cases hgaps : skipGaps (c :: t) with
      | nil => exact ⟨hgap, rfl⟩
      | cons =>
          rw [hgaps] at h
          cases h
  | ending _ _ heq =>
      rw [heq] at h
      exact absurd h (readEnding_ne_cutOff s c t)
  | boundary _ heq | quote _ heq | openParenthesis _ _ heq | closeParenthesis _ _ heq | angle _ heq
  | character _ _ _ heq =>
      rw [heq] at h
      cases h

/-- A statement that is cut off ends with some text. -/
theorem exists_completion (h : s.read t = none) : ∃ other, other ≠ [] ∧ s.Completes (t ++ other) := by
  fun_induction read s t with
  | case1 s => exact ⟨s.closers, (beginsClosing_closers s).ne_nil, completes_closers s⟩
  | case2 s c tail u next hstep ih =>
      rcases step_local_or_completes hstep with hall | hcompletes
      · obtain ⟨other, hne, hother⟩ := ih h
        refine ⟨other, hne, ?_⟩
        rw [List.cons_append, Completes, read_cons, hall]
        exact hother
      · exact hcompletes
  | case3 => cases h
  | case4 s c tail hstep =>
      obtain ⟨hgap, hgaps⟩ := skipGaps_of_step_eq_cutOff hstep
      obtain ⟨more, hmore⟩ := exists_skipGaps_append hgaps
      have hclosing := beginsClosing_closers s
      have hskip : skipGaps (c :: (tail ++ (more ++ s.closers))) = s.closers := by
        rw [← List.cons_append, hmore _ hclosing.ne_nil, hclosing.skipGaps_eq]
      refine ⟨more ++ s.closers, by simp [hclosing.ne_nil], ?_⟩
      obtain ⟨last, hcloser⟩ := hclosing
      rw [List.cons_append, Completes, read_cons, step, if_pos hgap, hskip]
      have hended := completes_closers_of_parentheses_eq (parentheses_endToken s)
      rcases hcloser with hclosers | hclosers <;> rw [hclosers] at hended ⊢ <;> dsimp only
      · rwa [boundary_closing (.inl rfl)]
      · rwa [boundary_closing (.inr rfl)]

/-- A statement that runs into the end of the text takes a blank with it. -/
theorem readEnding_append_blank {statement : Statement (List Char)} {next : List Char}
    (h : s.readEnding c t = .complete statement next) (hnot : statement.isComplete = false) :
    ∃ own, s.readEnding c (t ++ [' ']) = .complete own [] := by
  cases s.readEnding_cases c with
  | block _ heq =>
      rw [heq] at h
      cases h
      have hrest : afterBracket '\x7b' '\x7d' 0 (t ++ [' ']) = [] := by
        simpa [Statement.isComplete, finish] using hnot
      rw [heq, hrest]
      exact ⟨_, rfl⟩
  | initializer _ heq =>
      rw [heq] at h
      cases hend : initializerEnd .none t with
      | comma =>
          rw [hend] at h
          cases h
      | semicolon =>
          rw [hend] at h
          cases h
          cases hnot
      | endOfText =>
          rw [heq, initializerEnd_append_blank hend]
          exact ⟨_, rfl⟩
  | closeBrace _ heq | label _ heq | semicolon heq =>
      rw [heq] at h
      cases h
      cases hnot
  | colon _ heq | enclosed heq | constantBody _ heq =>
      rw [heq] at h
      cases h

/-- So does a statement as a whole. -/
theorem completes_append_blank {statement : Statement (List Char)} {rest : List Char}
    (h : s.read t = some (statement, rest)) (hnot : statement.isComplete = false) :
    s.Completes (t ++ [' ']) := by
  fun_induction read s t with
  | case1 => cases h
  | case2 s c tail u next hstep ih =>
      have hends : (s.step c (tail ++ [])).EndsBefore [] := by
        rw [List.append_nil, hstep]
        exact ⟨statement, rest, h, Nat.zero_le _⟩
      rw [List.cons_append, Completes, read_cons, step_append hends, hstep]
      exact ih h
  | case3 s c tail own next hstep =>
      cases h
      have hending : s.readEnding c tail = .complete statement rest := by
        rw [← step_eq_readEnding hstep, hstep]
      obtain ⟨after, hafter⟩ := readEnding_append_blank hending hnot
      rw [List.cons_append, Completes, read_cons, step_eq_readEnding hstep, hafter]
      exact ⟨after, rfl⟩
  | case4 => cases h

end OpenStatement

/-- A statement that ran into the end of a text runs into it behind a blank
as well. -/
theorem scan_append_blank {t rest : List Char} {statement : Statement (List Char)}
    (h : scan t = some (statement, rest)) (hnot : statement.isComplete = false) :
    ∃ later, scan (t ++ [' ']) = some (later, []) := by
  have hne : skipGaps t ≠ [] := by
    intro hnil
    rw [scan, hnil, OpenStatement.read] at h
    cases h
  rw [scan, local_skipGaps.append_of_ne_nil hne]
  exact OpenStatement.completes_append_blank h hnot

/-- **Every text can be completed.**  If no statement is completed in a text,
then some more text completes one, of which nothing remains. -/
theorem exists_scan_append {t : List Char}
    (h : ∀ statement rest, scan t = some (statement, rest) → statement.isComplete = false) :
    ∃ other, other ≠ [] ∧ ∃ statement, scan (t ++ other) = some (statement, []) := by
  cases hscan : scan t with
  | some read =>
      obtain ⟨statement, rest⟩ := read
      exact ⟨[' '], by simp, scan_append_blank hscan (h statement rest hscan)⟩
  | none =>
      by_cases hne : skipGaps t = []
      · obtain ⟨more, hmore⟩ := exists_skipGaps_append hne
        have hclosing := OpenStatement.beginsClosing_closers .start
        refine ⟨more ++ OpenStatement.start.closers, by simp [hclosing.ne_nil], ?_⟩
        rw [scan, hmore _ hclosing.ne_nil, hclosing.skipGaps_eq]
        exact OpenStatement.completes_closers .start
      · obtain ⟨other, hother, hcompletes⟩ := OpenStatement.exists_completion hscan
        refine ⟨other, hother, ?_⟩
        rw [scan, local_skipGaps.append_of_ne_nil hne]
        exact hcompletes

end JavaOutline
