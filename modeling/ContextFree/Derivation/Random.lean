import ContextFree.Derivation.Basic
import ContextFree.Derivation.Draw

/-!
# Random leftmost derivations

`Grammar.derive` starts from the start symbol and takes one leftmost step after the other, each
time with a production drawn from those for the symbol.  It ends when no symbol has a production
any more, or gives up when a limit of steps is reached and there is still something to replace.
-/

namespace ContextFree

/-- A derivation did not finish within a number of steps. -/
structure StepLimitExceeded where
  limit : Nat
deriving DecidableEq

/-- The message for a derivation that did not finish. -/
def StepLimitExceeded.message (e : StepLimitExceeded) : String :=
  "Derivation did not finish within " ++ toString e.limit ++ " rewrites"

instance : ToString StepLimitExceeded := ⟨StepLimitExceeded.message⟩

/-- A derivation under way.  The earlier forms and the rules are kept with the latest first. -/
structure Progress where
  form : Form
  earlier : List Form
  rules : List Production
  words : Words
deriving DecidableEq

namespace Progress

/-- The derivation so far. -/
def derivation (p : Progress) : Derivation := ⟨(p.form :: p.earlier).reverse, p.rules.reverse⟩

/-- Takes one leftmost step, if there is something to replace. -/
def step? (d : Declaration) (p : Progress) : Option Progress :=
  match h : d.redex? p.form with
  | none => none
  | some r =>
    let (rule, rest) := p.words.choose (d.rulesFor r.head) (Declaration.redex?_eq_some h).2.1
    some ⟨r.fill rule.body, p.form :: p.earlier, rule :: p.rules, rest⟩

/-- Takes steps until there is nothing to replace, and gives where it stopped if that does not
happen within the limit. -/
def finish (d : Declaration) (limit : Nat) (p : Progress) : Except Progress Progress :=
  match p.step? d with
  | none => .ok p
  | some next =>
    match limit with
    | 0 => .error p
    | limit + 1 => finish d limit next

end Progress

/-- Derives at random from the start symbol, within a limit of steps.  Gives the derivation or
the exceeded limit, and the words that are left. -/
def Grammar.derive (g : Grammar) (words : Words) (limit : Nat) :
    Except StepLimitExceeded Derivation × Words :=
  match Progress.finish g.toDeclaration limit ⟨[g.start], [], [], words⟩ with
  | .ok p => (.ok p.derivation, p.words)
  | .error p => (.error ⟨limit⟩, p.words)

end ContextFree
