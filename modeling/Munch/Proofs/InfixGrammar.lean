import Mathlib.Tactic.Common
import Munch.Regex.Token

/-! The grammar of infix notation, without concatenation signs.

    expression  ::=  term | expression "|" term
    term        ::=  factor | term factor
    factor      ::=  atom | factor "*" | factor "+"
    atom        ::=  literal | "(" expression ")"

What the grammar derives is told by neighbours alone: the parentheses are balanced, and wherever
an operand has to begin, one begins.
-/

namespace Munch.Regex

/-- The nonterminals of the grammar. -/
inductive Level where
  | expression
  | term
  | factor
  | atom

/-- The tokens are derived from the nonterminal, and the derivation has the given tree. Both binary
operators associate to the left.
-/
inductive Derives : Level → List Token → Regex → Prop
  | literal (c : Char) : Derives .atom [.literal c] (.literal c)
  | group {tokens tree} (inner : Derives .expression tokens tree)
    : Derives .atom (.openGroup :: (tokens ++ [.closeGroup])) tree
  | atom {tokens tree} (whole : Derives .atom tokens tree) : Derives .factor tokens tree
  | star {tokens tree} (operand : Derives .factor tokens tree)
    : Derives .factor (tokens ++ [.head .star]) (.star tree)
  | plus {tokens tree} (operand : Derives .factor tokens tree)
    : Derives .factor (tokens ++ [.head .plus]) (.plus tree)
  | factor {tokens tree} (whole : Derives .factor tokens tree) : Derives .term tokens tree
  | concat {front back left right} (first : Derives .term front left)
    (second : Derives .factor back right)
    : Derives .term (front ++ back) (.concat left right)
  | term {tokens tree} (whole : Derives .term tokens tree) : Derives .expression tokens tree
  | union {front back left right} (first : Derives .expression front left)
    (second : Derives .term back right)
    : Derives .expression (front ++ .head .union :: back) (.union left right)

/-- Some tree is derived with the tokens. -/
def Derivable (level : Level) (tokens : List Token) : Prop :=
  ∃ tree, Derives level tokens tree

/-- Derived tokens begin as an operand does, by induction on the derivation. -/
theorem Derives.begins {level : Level} {tokens : List Token} {tree : Regex}
    (h : Derives level tokens tree)
    : ∃ first rest, tokens = first :: rest ∧ first.beginsOperand = true := by
  induction h with
  | literal c => exact ⟨_, _, rfl, rfl⟩
  | group => exact ⟨_, _, rfl, rfl⟩
  | atom _ ih | factor _ ih | term _ ih => exact ih
  | star _ ih | plus _ ih =>
      obtain ⟨first, rest, rfl, begins⟩ := ih
      exact ⟨first, _, rfl, begins⟩
  | concat _ _ ih _ | union _ _ ih _ =>
      obtain ⟨first, rest, rfl, begins⟩ := ih
      exact ⟨first, _, rfl, begins⟩

/-- Derived tokens end as an operand does, by induction on the derivation. -/
theorem Derives.ends {level : Level} {tokens : List Token} {tree : Regex}
    (h : Derives level tokens tree)
    : ∃ front last, tokens = front ++ [last] ∧ last.endsOperand = true := by
  induction h with
  | literal c => exact ⟨[], _, rfl, rfl⟩
  | group => exact ⟨_ :: _, .closeGroup, rfl, rfl⟩
  | atom _ ih | factor _ ih | term _ ih => exact ih
  | star | plus => exact ⟨_, _, rfl, rfl⟩
  | @concat front back left right _ _ _ ih =>
      obtain ⟨others, last, rfl, ends⟩ := ih
      exact ⟨front ++ others, last, by simp, ends⟩
  | @union front back left right _ _ _ ih =>
      obtain ⟨others, last, rfl, ends⟩ := ih
      exact ⟨front ++ .head .union :: others, last, by simp, ends⟩

-----------------------------------------------------------------------------------------
-- Token sequences that are well formed by their neighbours
-----------------------------------------------------------------------------------------

/-- As many groups are closed as are open and opened, and none that is not open. -/
def Balanced : Nat → List Token → Prop
  | depth, [] => depth = 0
  | depth, .openGroup :: tokens => Balanced (depth + 1) tokens
  | 0, .closeGroup :: _ => False
  | depth + 1, .closeGroup :: tokens => Balanced depth tokens
  | depth, .head _ :: tokens => Balanced depth tokens

/-- Where an operand has to begin (at first if `expecting`, and behind each token that does not end
one), an operand begins, and none is missing at the end.
-/
def Alternates : Bool → List Token → Prop
  | expecting, [] => expecting = false
  | expecting, token :: tokens =>
      (expecting = true → token.beginsOperand = true) ∧ Alternates (!token.endsOperand) tokens

/-- What may stand in a group before an operand: alternatives that are complete, and a term that
the operand continues.
-/
def Lead (tokens : List Token) : Prop :=
  ∃ front back,
    tokens = front ++ back
    ∧ (front = [] ∨ ∃ whole, Derivable .expression whole ∧ front = whole ++ [.head .union])
    ∧ (back = [] ∨ Derivable .term back)

/-- The first operand of a group may have nothing before it. -/
theorem lead_nil : Lead [] :=
  ⟨[], [], rfl, Or.inl rfl, Or.inl rfl⟩

/-- A complete alternative may stand before an operand, with the union behind it. -/
theorem lead_union {tokens : List Token} (h : Derivable .expression tokens)
    : Lead (tokens ++ [.head .union]) :=
  ⟨_, [], by simp, Or.inr ⟨tokens, h, rfl⟩, Or.inl rfl⟩

/-- With a factor behind it, the continued term is a term. -/
theorem derivable_term {back operand : List Token} (h : back = [] ∨ Derivable .term back)
    (factor : Derivable .factor operand)
    : Derivable .term (back ++ operand) := by
  obtain ⟨tree, second⟩ := factor
  rcases h with rfl | ⟨left, first⟩
  · exact ⟨tree, .factor second⟩
  · exact ⟨_, .concat first second⟩

/-- An operand at the end continues the term, or it begins one. -/
theorem Lead.append {lead operand : List Token} (h : Lead lead)
    (factor : Derivable .factor operand)
    : Lead (lead ++ operand) := by
  obtain ⟨front, back, rfl, alternatives, term⟩ := h
  exact ⟨front, back ++ operand, by simp, alternatives, Or.inr (derivable_term term factor)⟩

/-- What may stand before an operand is an expression with the operand behind it. -/
theorem Lead.expression {lead operand : List Token} (h : Lead lead)
    (factor : Derivable .factor operand)
    : Derivable .expression (lead ++ operand) := by
  obtain ⟨front, back, rfl, alternatives, term⟩ := h
  obtain ⟨right, second⟩ := derivable_term term factor
  rcases alternatives with rfl | ⟨whole, ⟨left, first⟩, rfl⟩
  · exact ⟨right, .term second⟩
  · exact ⟨_, by simpa using Derives.union first second⟩

/-- The tokens before the innermost group, of which the leads stand in the groups around it. -/
def enclosing (leads : List (List Token)) : List Token :=
  leads.reverse.flatMap fun lead => lead ++ [.openGroup]

/-- Going into one more group puts its lead and its parenthesis behind what encloses it. -/
theorem enclosing_cons (lead : List Token) (leads : List (List Token))
    : enclosing (lead :: leads) = enclosing leads ++ lead ++ [.openGroup] := by
  simp [enclosing]

/-- Well-formed tokens complete what has been read of an expression: in each open group a lead, and
in the innermost one perhaps an operand behind it. By induction on the tokens.
-/
theorem derivable_of_alternates {tokens : List Token} {leads : List (List Token)}
    {lead : List Token} (outer : ∀ other ∈ leads, Lead other) (inner : Lead lead)
    (balanced : Balanced leads.length tokens) (implicit : .head .concat ∉ tokens)
    : (Alternates true tokens
        → Derivable .expression (enclosing leads ++ lead ++ tokens))
      ∧ ∀ operand,
          Derivable .factor operand
          → Alternates false tokens
          → Derivable .expression (enclosing leads ++ lead ++ operand ++ tokens) := by
  induction tokens generalizing leads lead with
  | nil =>
      refine ⟨fun missing => absurd missing (by simp [Alternates]), ?_⟩
      intro operand factor _
      obtain rfl : leads = [] := List.length_eq_zero_iff.mp balanced
      simpa [enclosing] using inner.expression factor
  | cons token tokens ih =>
      have implicit' : .head .concat ∉ tokens := fun mem => implicit (by simp [mem])
      -- an operand may begin in either state: behind another one, it continues the term
      have begins {lead : List Token} (inner : Lead lead) (begin : token.beginsOperand = true)
          (next : Alternates (!token.endsOperand) tokens)
          : Derivable .expression (enclosing leads ++ lead ++ token :: tokens) := by
        cases token with
        | openGroup =>
            have outer' : ∀ other ∈ lead :: leads, Lead other := by
              intro other mem
              rcases List.mem_cons.mp mem with rfl | mem
              · exact inner
              · exact outer other mem
            simpa [enclosing_cons] using (ih outer' lead_nil balanced implicit').1 next
        | closeGroup => cases begin
        | head symbol =>
            cases symbol with
            | literal c =>
                have factor : Derivable .factor [.literal c] := ⟨_, .atom (.literal c)⟩
                simpa using (ih outer inner balanced implicit').2 _ factor next
            | star | plus | concat | union => cases begin
      refine ⟨fun h => begins inner (h.1 rfl) h.2, ?_⟩
      intro operand factor h
      by_cases begin : token.beginsOperand = true
      · simpa using begins (inner.append factor) begin h.2
      obtain ⟨tree, derived⟩ := factor
      cases token with
      | openGroup => exact absurd rfl begin
      | closeGroup =>
          cases leads with
          | nil => exact balanced.elim
          | cons lead' leads =>
              obtain ⟨whole, expression⟩ := inner.expression ⟨tree, derived⟩
              have group : Derivable .factor (.openGroup :: (lead ++ operand ++ [.closeGroup])) :=
                ⟨whole, .atom (.group expression)⟩
              have outer' : ∀ other ∈ leads, Lead other := fun other mem =>
                outer other (by simp [mem])
              have rest := (ih outer' (outer lead' (by simp)) balanced implicit').2 _ group h.2
              simpa [enclosing_cons] using rest
      | head symbol =>
          cases symbol with
          | literal c => exact absurd rfl begin
          | concat => exact absurd (List.mem_cons_self) implicit
          | star =>
              have factor : Derivable .factor (operand ++ [.head .star]) := ⟨_, .star derived⟩
              simpa using (ih outer inner balanced implicit').2 _ factor h.2
          | plus =>
              have factor : Derivable .factor (operand ++ [.head .plus]) := ⟨_, .plus derived⟩
              simpa using (ih outer inner balanced implicit').2 _ factor h.2
          | union =>
              have lead' := lead_union (inner.expression ⟨tree, derived⟩)
              simpa using (ih outer lead' balanced implicit').1 h.2

/-- Tokens that are balanced and alternate are derived from the grammar. -/
theorem derivable_expression {tokens : List Token} (balanced : Balanced 0 tokens)
    (implicit : .head .concat ∉ tokens) (alternates : Alternates true tokens)
    : Derivable .expression tokens := by
  have whole := @derivable_of_alternates tokens [] [] (by simp) lead_nil balanced implicit
  simpa [enclosing] using whole.1 alternates

end Munch.Regex
