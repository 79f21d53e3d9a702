import Mathlib.Tactic.Common
import Munch.Regex.Basic

/-! Trees written as nested applications have one reading, although every character stands for
itself there, be it a comma, a parenthesis or the first letter of a name. The text of one tree may
begin that of another, as a literal `S` begins that of every star. But behind an operand comes a
comma or a closing parenthesis, and no name goes on like that behind its first letter.
-/

namespace Munch.Regex

/-- The text of a symbol, up to the first tree below it. -/
def Head.opening : Head → List Char
  | .literal c => [c]
  | .star => ['S', 't', 'a', 'r', '(']
  | .plus => ['P', 'l', 'u', 's', '(']
  | .concat => ['C', 'o', 'n', 'c', 'a', 't', '(']
  | .union => ['U', 'n', 'i', 'o', 'n', '(']

/-- The symbol at the root. -/
def root : Regex → Head
  | .literal c => .literal c
  | .star _ => .star
  | .plus _ => .plus
  | .concat _ _ => .concat
  | .union _ _ => .union

/-- The text of the trees below the root, with what separates and ends them. -/
def renderBelow : Regex → List Char
  | .literal _ => []
  | .star inner | .plus inner => inner.render ++ [')']
  | .concat left right | .union left right => left.render ++ ',' :: (right.render ++ [')'])

/-- A tree is rendered as its root and then what is below it. -/
theorem render_eq (tree : Regex) : tree.render = tree.root.opening ++ tree.renderBelow := by
  have applied {name opening : List Char} (same : name = opening) (text : List Char)
      : name ++ text ++ [')'] = opening ++ (text ++ [')']) := by
    rw [same, List.append_assoc]
  have appliedTwice {name opening : List Char} (same : name = opening) (front back : List Char)
      : name ++ front ++ [','] ++ back ++ [')'] = opening ++ (front ++ ',' :: (back ++ [')'])) := by
    simp [same]
  cases tree with
  | literal c => rfl
  | star inner | plus inner => exact applied (by simp [root, Head.opening]) inner.render
  | concat left right | union left right =>
      exact appliedTwice (by simp [root, Head.opening]) left.render right.render

/-- The text can stand behind an operand: it is over, or goes on with a comma or the end of an
application.
-/
def Delimits (rest : List Char) : Prop :=
  ∀ c ∈ rest.head?, c = ',' ∨ c = ')'

/-- A tree may stand at the end of the text. -/
theorem delimits_nil : Delimits [] := by
  simp [Delimits]

/-- A tree may stand before a comma. -/
theorem delimits_comma (rest : List Char) : Delimits (',' :: rest) := by
  simp [Delimits]

/-- A tree may stand before the end of an application. -/
theorem delimits_close (rest : List Char) : Delimits (')' :: rest) := by
  simp [Delimits]

/-- Behind its first character, the text of an operator goes on with a letter. -/
theorem literal_append_ne {c : Char} {symbol : Head} {rest more : List Char}
    (operator : ∀ d, symbol ≠ .literal d) (delimited : Delimits rest)
    : (Head.literal c).opening ++ rest ≠ symbol.opening ++ more := by
  intro same
  cases symbol with
  | literal d => exact operator d rfl
  | star | plus | concat | union =>
      obtain ⟨-, rfl⟩ := List.cons.inj same
      simp [Delimits] at delimited

/-- No two symbols open alike, as long as a literal is delimited. -/
theorem opening_append_inj {first second : Head} {rest more : List Char}
    (delimited : ∀ c, first = .literal c → Delimits rest)
    (delimited' : ∀ c, second = .literal c → Delimits more)
    (same : first.opening ++ rest = second.opening ++ more)
    : first = second ∧ rest = more := by
  cases first with
  | literal c =>
      cases second with
      | literal d =>
          obtain ⟨rfl, rfl⟩ := List.cons.inj same
          exact ⟨rfl, rfl⟩
      | star | plus | concat | union =>
          exact absurd same (literal_append_ne (by simp) (delimited c rfl))
  | star | plus | concat | union =>
      cases second with
      | literal d => exact absurd same.symm (literal_append_ne (by simp) (delimited' d rfl))
      | star | plus | concat | union => simp_all [Head.opening]

/-- Below a literal there is nothing to render. -/
theorem renderBelow_of_root {tree : Regex} {c : Char} (leaf : tree.root = .literal c)
    : tree.renderBelow = [] := by
  cases tree with
  | literal d => rfl
  | star | plus | concat | union => cases leaf

/-- Before a delimiter, the text of a tree is that of no other tree. -/
def ReadsUniquely (tree : Regex) : Prop :=
  ∀ other rest more,
    Delimits rest
    → Delimits more
    → tree.render ++ rest = other.render ++ more
    → tree = other ∧ rest = more

/-- The symbol at the root is read first, so what is below it has to be read in one way. -/
theorem readsUniquely_of_root {tree : Regex}
    (below
      : ∀ other rest more,
          tree.root = other.root
          → tree.renderBelow ++ rest = other.renderBelow ++ more
          → tree = other ∧ rest = more)
    : tree.ReadsUniquely := by
  intro other rest more delimited delimited' same
  rw [render_eq tree, render_eq other, List.append_assoc, List.append_assoc] at same
  obtain ⟨roots, behind⟩ := opening_append_inj
    (fun c leaf => by rwa [renderBelow_of_root leaf])
    (fun c leaf => by rwa [renderBelow_of_root leaf]) same
  exact below other rest more roots behind

/-- The only operand is read up to the end of the application. -/
theorem ReadsUniquely.ended {inner other : Regex} {rest more : List Char}
    (h : inner.ReadsUniquely)
    (same : inner.render ++ [')'] ++ rest = other.render ++ [')'] ++ more)
    : inner = other ∧ rest = more := by
  rw [List.append_assoc, List.append_assoc] at same
  obtain ⟨rfl, behind⟩ := h other _ _ (delimits_close rest) (delimits_close more) same
  exact ⟨rfl, (List.cons.inj behind).2⟩

/-- Of two operands, the first one is read up to the comma. -/
theorem ReadsUniquely.separated {left right left' right' : Regex} {rest more : List Char}
    (first : left.ReadsUniquely) (second : right.ReadsUniquely)
    (same
      : left.render ++ ',' :: (right.render ++ [')']) ++ rest
        = left'.render ++ ',' :: (right'.render ++ [')']) ++ more)
    : left = left' ∧ right = right' ∧ rest = more := by
  rw [List.append_assoc, List.append_assoc] at same
  obtain ⟨rfl, behind⟩ := first left' _ _ (delimits_comma _) (delimits_comma _) same
  obtain ⟨rfl, rfl⟩ := second.ended (List.cons.inj behind).2
  exact ⟨rfl, rfl, rfl⟩

/-- Every tree is read uniquely, by induction on the tree. -/
theorem readsUniquely (tree : Regex) : tree.ReadsUniquely := by
  induction tree with
  | literal c =>
      refine readsUniquely_of_root fun other rest more roots below => ?_
      cases other with
      | literal d =>
          obtain rfl := Head.literal.inj roots
          exact ⟨rfl, below⟩
      | star | plus | concat | union => cases roots
  | star inner ih =>
      refine readsUniquely_of_root fun other rest more roots below => ?_
      cases other with
      | star inner' =>
          obtain ⟨rfl, rfl⟩ := ih.ended below
          exact ⟨rfl, rfl⟩
      | literal | plus | concat | union => cases roots
  | plus inner ih =>
      refine readsUniquely_of_root fun other rest more roots below => ?_
      cases other with
      | plus inner' =>
          obtain ⟨rfl, rfl⟩ := ih.ended below
          exact ⟨rfl, rfl⟩
      | literal | star | concat | union => cases roots
  | concat left right ihLeft ihRight =>
      refine readsUniquely_of_root fun other rest more roots below => ?_
      cases other with
      | concat left' right' =>
          obtain ⟨rfl, rfl, rfl⟩ := ihLeft.separated ihRight below
          exact ⟨rfl, rfl⟩
      | literal | star | plus | union => cases roots
  | union left right ihLeft ihRight =>
      refine readsUniquely_of_root fun other rest more roots below => ?_
      cases other with
      | union left' right' =>
          obtain ⟨rfl, rfl, rfl⟩ := ihLeft.separated ihRight below
          exact ⟨rfl, rfl⟩
      | literal | star | plus | concat => cases roots

/-- Without a delimiter, the text of a literal may go on as that of a repetition does. -/
example : (literal 'S').render ++ "tar(a)".toList = (star (literal 'a')).render := by
  decide

/-- The text of a tree determines the tree. -/
theorem toString_inj {tree other : Regex} : toString tree = toString other ↔ tree = other := by
  constructor
  · intro same
    have same : tree.render = other.render := String.ofList_injective same
    have same : tree.render ++ [] = other.render ++ [] := congrArg (· ++ []) same
    exact (readsUniquely tree other [] [] delimits_nil delimits_nil same).1
  · exact congrArg toString

end Munch.Regex
