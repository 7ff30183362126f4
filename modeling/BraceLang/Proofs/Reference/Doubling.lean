import Mathlib.Data.Fin.VecNotation
import BraceLang.Proofs.Plain.Literals
import BraceLang.Proofs.Reference.Refinement

/-!
# A short program with a value that is nested deep

A function that applies another one twice can be applied to itself. Each time it is, the function
that comes out applies the first one twice as often. So a program puts a list into as many lists as
a power of two says, while its text, and the depth of its evaluation, grow with the exponent.

* `Reference.Gives`: a term has a value, given enough levels and cells.
* `Reference.gives_bodyOf`: a function that was doubled a number of times.
* `Reference.evaluateText_program`: the value of the program.
* `Reference.lex_programText`: the text of the program.
-/

namespace BraceLang

namespace Reference

open Plain

/-! ## What a term gives -/

/-- The term has the value if there are as many levels and cells. -/
def Gives (need cells : Nat) (scope : Scope Term) (e : Term) (d : Datum Term) : Prop :=
  ∀ (limits : Limits) (core : Core Term), need ≤ limits.levels → limits.Room core.used cells →
    evaluateWithin limits.levels scope e limits core = .ok d ⟨core.used + cells, core.slots⟩

theorem charge_eq_ok {limits : Limits} {core : Core Term} {cells : Nat}
    (h : limits.Room core.used cells) :
    CoreM.charge cells limits core = .ok () ⟨core.used + cells, core.slots⟩ :=
  charge_eq_ok_iff.mpr ⟨h, rfl⟩

namespace Gives

variable {need need' cells cells₁ cells₂ cells₃ : Nat} {scope defining : Scope Term} {e : Term}
  {d : Datum Term} {name : List Char} {body : Term}

theorem mono (h : Gives need cells scope e d) (hle : need ≤ need') : Gives need' cells scope e d :=
  fun limits core hlevels => h limits core (Nat.le_trans hle hlevels)

/-- Where a level is left, a term is evaluated one level deeper. -/
theorem of_deeper
    (h : ∀ (limits : Limits) (core : Core Term), need ≤ limits.levels →
      limits.Room core.used cells →
        termWith (evaluateWithin limits.levels) (passWithin limits.levels) scope e limits core =
          .ok d ⟨core.used + cells, core.slots⟩) : Gives (need + 1) cells scope e d := by
  intro limits core hlevels hroom
  have hdepth : ¬ limits.maxDepth ≤ limits.depth := by
    unfold Limits.levels at hlevels
    omega
  have hsucc : limits.levels = limits.deeper.levels + 1 := by
    unfold Limits.levels Limits.deeper at *
    dsimp only
    omega
  have hdeeper := h limits.deeper core (by omega) hroom
  rw [hsucc]
  exact (congrFun (if_neg hdepth) core).trans hdeeper

theorem atom (h : scope.lookup name = some (.value d)) :
    Gives 1 0 scope (.primary (.atom name)) d := by
  refine of_deeper fun limits core _ _ => ?_
  simp only [termWith, CoreM.lookupName, h]
  rfl

theorem nil (scope : Scope Term) :
    Gives 1 0 scope (.operation .nil ![]) (.list []) :=
  of_deeper fun _ _ _ _ => rfl

theorem closure (scope : Scope Term) (params : List Param) (body : Term) :
    Gives 1 (2 * params.length + body.tokens.length + 3) scope (.primary (.closure params body))
      (.closure params body scope) := by
  refine of_deeper fun limits core _ hroom => ?_
  have hlast := hroom.right
  rw [← Nat.add_assoc] at hlast
  refine (reader_bind_of_ok (charge_eq_ok hroom.left.left)).trans ?_
  refine (reader_bind_of_ok (charge_eq_ok hroom.left.right)).trans ?_
  refine (reader_bind_of_ok (charge_eq_ok hlast)).trans ?_
  simp only [Nat.add_assoc]
  rfl

theorem push {item : Term} {items : Term} {values : List (Datum Term)}
    (hitem : Gives need cells₁ scope item d)
    (hitems : Gives need cells₂ scope items (.list values)) :
    Gives (need + 1) (cells₁ + cells₂ + 1) scope (.operation .push ![item, items])
      (.list (d :: values)) := by
  refine of_deeper fun limits core hlevels hroom => ?_
  have hfirst := hitem limits core hlevels hroom.left.left
  have hsecond := hitems limits ⟨core.used + cells₁, core.slots⟩ hlevels hroom.left.right
  have hlast := hroom.right
  rw [← Nat.add_assoc] at hlast
  have hoperand : operand (evaluateWithin limits.levels scope) [item, items] limits core =
      .ok (d, [items]) ⟨core.used + cells₁, core.slots⟩ := reader_bind_of_ok hfirst
  have hitems : operand (evaluateWithin limits.levels scope) [items] limits
      ⟨core.used + cells₁, core.slots⟩ =
        .ok (.list values, []) ⟨core.used + cells₁ + cells₂, core.slots⟩ :=
    reader_bind_of_ok hsecond
  have hlist : listOperand (operand (evaluateWithin limits.levels scope)) .push [items] limits
      ⟨core.used + cells₁, core.slots⟩ =
        .ok (values, []) ⟨core.used + cells₁ + cells₂, core.slots⟩ :=
    (reader_bind_of_ok hitems).trans rfl
  have hcell : ((CoreM.charge 1).lift : ReadM (List Term) Term Unit) [] limits
      ⟨core.used + cells₁ + cells₂, core.slots⟩ =
        .ok ((), []) ⟨core.used + cells₁ + cells₂ + 1, core.slots⟩ :=
    reader_bind_of_ok (charge_eq_ok hlast)
  have hkeyword : applyKeyword (operand (evaluateWithin limits.levels scope))
      (passOperand (passWithin limits.levels)) .push [item, items] limits core =
        .ok (.list (d :: values), []) ⟨core.used + cells₁ + cells₂ + 1, core.slots⟩ :=
    (reader_bind_of_ok hoperand).trans
      ((reader_bind_of_ok hlist).trans (reader_bind_of_ok hcell))
  simp only [← Nat.add_assoc]
  exact reader_bind_of_ok hkeyword

theorem call {callee : Primary} {argument : Term} {value : Datum Term}
    (hcallee : Gives need cells₁ scope (.primary callee)
      (.closure [⟨.eager, name⟩] body defining))
    (hargument : Gives need cells₂ scope argument value)
    (hbody : Gives need cells₃ ([(name, .value value)] :: defining) body d) :
    Gives (need + 1) (cells₁ + cells₂ + 3 + cells₃) scope
      (.primary (.call callee 1 ![argument])) d := by
  refine of_deeper fun limits core hlevels hroom => ?_
  have hfunction := hcallee limits core hlevels hroom.left.left.left
  have hvalue := hargument limits ⟨core.used + cells₁, core.slots⟩ hlevels hroom.left.left.right
  have hframe := hroom.left.right
  have hinner := hroom.right
  simp only [← Nat.add_assoc] at hframe hinner
  have hresult := hbody limits ⟨core.used + cells₁ + cells₂ + 3, core.slots⟩ hlevels hinner
  have hactuals : bindActuals (evaluateWithin limits.levels) scope [⟨.eager, name⟩] [argument]
      limits ⟨core.used + cells₁, core.slots⟩ =
        .ok [(name, .evaluated value)] ⟨core.used + cells₁ + cells₂, core.slots⟩ :=
    reader_bind_of_ok (reader_bind_of_ok hvalue)
  have hextend : extend defining [(name, Plain.Actual.evaluated value)] limits
      ⟨core.used + cells₁ + cells₂, core.slots⟩ =
        .ok ([(name, .value value)] :: defining)
          ⟨core.used + cells₁ + cells₂ + 3, core.slots⟩ := by
    have hframe : limits.Room (core.used + cells₁ + cells₂) (2 * 1 + 1) := hframe
    exact (reader_bind_of_ok (charge_eq_ok hframe.left)).trans
      (reader_bind_of_ok (charge_eq_ok hframe.right))
  simp only [← Nat.add_assoc]
  refine (reader_bind_of_ok hfunction).trans ?_
  exact (reader_bind_of_ok hactuals).trans ((reader_bind_of_ok hextend).trans hresult)

end Gives

/-! ## The program -/

def named (c : Char) : Term := .primary (.atom [c])

def function (c : Char) (body : Term) : Primary := .closure [⟨.eager, [c]⟩] body

def application (callee : Primary) (argument : Term) : Primary := .call callee 1 ![argument]

def emptyList : Term := .operation .nil ![]

/-- Put `x` into a list. -/
def wrapped : Term := .operation .push ![named 'x', emptyList]

/-- Apply `f` to `x` twice. -/
def appliedTwice : Term :=
  .primary (application (.atom ['f']) (.primary (application (.atom ['f']) (named 'x'))))

/-- The function that doubles another one. -/
def doubler : Term := .primary (function 'f' (.primary (function 'x' appliedTwice)))

/-- The function that puts a list into another one, doubled by `d` a number of times. -/
def doubledBy : Nat → Term
  | 0 => .primary (function 'x' wrapped)
  | k + 1 => .primary (application (.atom ['d']) (doubledBy k))

/-- The empty list is put into as many lists as the power of two with this exponent says. -/
def program (k : Nat) : Term :=
  .primary (application (application (function 'd' (doubledBy k)) doubler) emptyList)

theorem tokens_doubledBy_succ (k : Nat) : (doubledBy (k + 1)).tokens =
    .delimiter '(' :: .atom ['d'] :: ((doubledBy k).tokens ++ [.delimiter ')']) := by
  simp [doubledBy, application, Term.tokens, Primary.tokens, joinArguments]

theorem tokens_program (k : Nat) : (program k).tokens =
    [.delimiter '(', .delimiter '(', .delimiter '{', .atom ['d'], .delimiter ':'] ++
      ((doubledBy k).tokens ++ (.delimiter '}' :: doubler.tokens ++
        [.delimiter ')', .keyword .nil, .delimiter ')'])) := by
  have hempty : emptyList.tokens = [.keyword .nil] := rfl
  simp [program, application, function, hempty, Term.tokens, Primary.tokens, joinArguments,
    Param.tokens]

theorem length_doubledBy (k : Nat) : (doubledBy k).tokens.length = 3 * k + 7 := by
  induction k with
  | zero => rfl
  | succ k ih =>
    rw [tokens_doubledBy_succ]
    simp only [List.length_cons, List.length_append, List.length_nil, ih]
    omega

theorem length_program (k : Nat) : (program k).tokens.length = 3 * k + 31 := by
  have hdoubler : doubler.tokens.length = 15 := rfl
  rw [tokens_program]
  simp only [List.length_cons, List.length_append, List.length_nil, length_doubledBy, hdoubler]
  omega

/-! ## Its value -/

/-- The empty list inside a number of lists. -/
def nested {β : Type} : Nat → Datum β
  | 0 => .list []
  | n + 1 => .list [nested n]

theorem flat_nested (n : Nat) : flat (nested n) = nested n := by
  induction n with
  | zero => rfl
  | succ n ih =>
    simp only [flat, nested, Datum.mapBody, Datum.mapBodies] at ih ⊢
    rw [ih]

/-- What the function that doubles another one stands for. -/
def doublerValue : Datum Term :=
  .closure [⟨.eager, ['f']⟩] (.primary (function 'x' appliedTwice)) []

def bodyOf : Nat → Term
  | 0 => wrapped
  | _ + 1 => appliedTwice

/-- Where a doubled function was made: it refers to the function that was doubled last. -/
def scopeOf : Nat → Scope Term
  | 0 => [[(['d'], .value doublerValue)]]
  | k + 1 => [[(['f'], .value (.closure [⟨.eager, ['x']⟩] (bodyOf k) (scopeOf k)))]]

/-- The function that is doubled a number of times. -/
def doubledValue (k : Nat) : Datum Term := .closure [⟨.eager, ['x']⟩] (bodyOf k) (scopeOf k)

/-- The cells that a call of it takes, without those for the argument. -/
def bodyCells : Nat → Nat
  | 0 => 1
  | k + 1 => 3 + bodyCells k + 3 + bodyCells k

theorem bodyCells_eq (k : Nat) : bodyCells k + 6 = 7 * 2 ^ k := by
  induction k with
  | zero => rfl
  | succ k ih =>
    rw [bodyCells, Nat.pow_succ]
    omega

/-- Where the parameter is a list inside a number of lists, a doubled function gives that list
inside twice as many more for each time that it was doubled. -/
theorem gives_bodyOf (k n : Nat) :
    Gives (2 * k + 2) (bodyCells k) ([(['x'], .value (nested n))] :: scopeOf k) (bodyOf k)
      (nested (n + 2 ^ k)) := by
  induction k generalizing n with
  | zero => exact .push (.atom rfl) (.nil _)
  | succ k ih =>
    have hscope : ∀ n, Gives (2 * k + 2) 0 ([(['x'], .value (nested n))] :: scopeOf (k + 1))
        (.primary (.atom ['f'])) (doubledValue k) := fun n => Gives.mono (.atom rfl) (by omega)
    have hargument : Gives (2 * k + 2) 0 ([(['x'], .value (nested n))] :: scopeOf (k + 1))
        (named 'x') (nested n) := Gives.mono (.atom rfl) (by omega)
    have hinner := Gives.call (hscope n) hargument (ih n)
    have houter := Gives.call ((hscope n).mono (Nat.le_succ _)) hinner
      ((ih (n + 2 ^ k)).mono (Nat.le_succ _))
    simp only [Nat.zero_add] at houter
    rw [Nat.pow_succ, Nat.mul_two, ← Nat.add_assoc]
    exact houter

theorem gives_function (scope : Scope Term) (c : Char) {body : Term} {length : Nat}
    (h : body.tokens.length = length) :
    Gives 1 (length + 5) scope (.primary (function c body))
      (.closure [⟨.eager, [c]⟩] body scope) := by
  have hclosure := Gives.closure scope [⟨.eager, [c]⟩] body
  rw [h, List.length_singleton] at hclosure
  have hcells : 2 * 1 + length + 3 = length + 5 := by omega
  rwa [hcells] at hclosure

theorem gives_doubledBy (k : Nat) :
    Gives (k + 1) (15 * k + 8) [[(['d'], .value doublerValue)]] (doubledBy k) (doubledValue k) := by
  induction k with
  | zero => exact gives_function _ 'x' (rfl : wrapped.tokens.length = 3)
  | succ k ih =>
    have hcallee : Gives (k + 1) 0 [[(['d'], .value doublerValue)]] (.primary (.atom ['d']))
        doublerValue := Gives.mono (.atom rfl) (by omega)
    have hbody : Gives (k + 1) 12 [[(['f'], .value (doubledValue k))]]
        (.primary (function 'x' appliedTwice)) (doubledValue (k + 1)) :=
      (gives_function _ 'x' (rfl : appliedTwice.tokens.length = 7)).mono (Nat.le_add_left 1 k)
    have hcall := Gives.call hcallee ih hbody
    have hcells : 0 + (15 * k + 8) + 3 + 12 = 15 * (k + 1) + 8 := by omega
    rwa [hcells] at hcall

theorem gives_program (k : Nat) :
    Gives (2 * k + 3) (18 * k + 42 + bodyCells k) [] (program k) (nested (2 ^ k)) := by
  have hcallee : Gives (k + 1) (3 * k + 12) [] (.primary (function 'd' (doubledBy k)))
      (.closure [⟨.eager, ['d']⟩] (doubledBy k) []) :=
    (gives_function [] 'd' (length_doubledBy k)).mono (Nat.le_add_left 1 k)
  have hlength : (Term.primary (function 'x' appliedTwice)).tokens.length = 11 := rfl
  have hdoubler : Gives (k + 1) 16 [] doubler doublerValue :=
    (gives_function [] 'f' hlength).mono (Nat.le_add_left 1 k)
  have hfunction := (Gives.call hcallee hdoubler (gives_doubledBy k)).mono
    (by omega : k + 1 + 1 ≤ 2 * k + 2)
  have hlist : Gives (2 * k + 2) 0 [] emptyList (nested 0) := Gives.mono (.nil _) (by omega)
  have hcall := Gives.call hfunction hlist (gives_bodyOf k 0)
  have hcells : 3 * k + 12 + 16 + 3 + (15 * k + 8) + 0 + 3 + bodyCells k =
      18 * k + 42 + bodyCells k := by omega
  rwa [hcells, Nat.zero_add] at hcall

/-- The program takes two levels for each time that its function is doubled, and seven cells for
each list, besides those for its tokens and closures. -/
theorem evaluateText_program {k : Nat} {limits : Limits} (hlevels : 2 * k + 3 ≤ limits.levels)
    (hroom : limits.Room 0 (24 * k + 98 + 7 * 2 ^ k)) :
    evaluateText (program k) limits {} =
      .ok (nested (2 ^ k)) ⟨24 * k + 98 + 7 * 2 ^ k, #[]⟩ := by
  have hbody := bodyCells_eq k
  have hcells : 24 * k + 98 + 7 * 2 ^ k =
      3 * k + 31 + (3 * k + 31) + (18 * k + 42 + bodyCells k) := by omega
  rw [hcells] at hroom
  have hvalue := gives_program k limits ⟨0 + (3 * k + 31) + (3 * k + 31), #[]⟩ hlevels
    (by simpa only [Nat.zero_add] using hroom.right)
  have hused : 0 + (3 * k + 31) + (3 * k + 31) + (18 * k + 42 + bodyCells k) =
      24 * k + 98 + 7 * 2 ^ k := by omega
  dsimp only at hvalue
  rw [hused] at hvalue
  unfold evaluateText
  rw [length_program]
  exact (reader_bind_of_ok (charge_eq_ok hroom.left.left)).trans
    ((reader_bind_of_ok (charge_eq_ok hroom.left.right)).trans hvalue)

/-! ## Its text -/

/-- The text of the program. -/
def programText (k : Nat) : String := String.ofList (Lexeme.spaced true (program k).tokens)

theorem isBare_doubledBy (k : Nat) : (doubledBy k).tokens.all Lexicon.isBare = true := by
  induction k with
  | zero => decide +kernel
  | succ k ih =>
    rw [tokens_doubledBy_succ, List.all_cons, List.all_cons, List.all_append, ih]
    decide +kernel

theorem isBare_program (k : Nat) : (program k).tokens.all Lexicon.isBare = true := by
  rw [tokens_program, List.all_append, List.all_append, isBare_doubledBy]
  decide +kernel

theorem lex_programText {lx : Lexicon} (hlx : lx.Standard) (k : Nat) :
    lx.lex (programText k).toList = ((program k).tokens, none) := by
  rw [programText, String.toList_ofList]
  exact Lexicon.lex_spaced_of_isBare hlx (isBare_program k) true

end Reference

end BraceLang
