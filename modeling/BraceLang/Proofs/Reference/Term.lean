import BraceLang.Proofs.Plain.Evaluation

/-!
# Syntax trees

The grammar of terms as a type, and the tokens of a tree. A function term cannot start with a
keyword, because a keyword behind a parenthesis takes operands and is not called.

The delimiters in the tokens of a tree are properly nested, and commas stand inside parentheses. So
the parts that evaluation splits off a token list end where the trees do.

* `Term.tokens`: the tokens of a tree.
* `Term.balanced_tokens`: the delimiters are properly nested.
* `Balanced.splitBody`, `Balanced.splitOpen`, `Balanced.splitGroups`: splitting goes on behind
  tokens that are properly nested.
-/

namespace BraceLang

mutual

/-- A term. -/
inductive Term where
  /-- a keyword in front of its operands -/
  | operation (op : Keyword) (operands : Fin op.arity → Term)
  | primary (p : Primary)

/-- A term that does not start with a keyword. -/
inductive Primary where
  | number (n : Float)
  | string (text : List Char)
  | atom (name : List Char)
  | closure (params : List Param) (body : Term)
  /-- a keyword and its operands in parentheses -/
  | group (op : Keyword) (operands : Fin op.arity → Term)
  /-- a function and its arguments in parentheses -/
  | call (callee : Primary) (count : Nat) (arguments : Fin count → Term)

end

/-- The tokens of a formal parameter. -/
def Param.tokens (p : Param) : Tokens :=
  match p.mode with
  | .eager => [.atom p.name]
  | .deferred => [.delimiter '!', .atom p.name]

/-- Arguments with commas between them. -/
def joinArguments : List Tokens → Tokens
  | [] => []
  | [argument] => argument
  | argument :: next :: arguments => argument ++ .delimiter ',' :: joinArguments (next :: arguments)

mutual

/-- The tokens of a term. -/
def Term.tokens : Term → Tokens
  | .operation op operands => .keyword op :: (List.ofFn fun i => (operands i).tokens).flatten
  | .primary p => p.tokens

def Primary.tokens : Primary → Tokens
  | .number n => [.number n]
  | .string text => [.string text]
  | .atom name => [.atom name]
  | .closure params body =>
    .delimiter '{' :: params.flatMap Param.tokens ++
      .delimiter ':' :: body.tokens ++ [.delimiter '}']
  | .group op operands =>
    .delimiter '(' :: .keyword op :: (List.ofFn fun i => (operands i).tokens).flatten ++
      [.delimiter ')']
  | .call callee _ arguments =>
    .delimiter '(' :: callee.tokens ++
      joinArguments (List.ofFn fun i => (arguments i).tokens) ++ [.delimiter ')']

end

/-- The tokens of a primary term start with neither a keyword nor a closing delimiter. -/
theorem Primary.tokens_cases (p : Primary) : ∃ token rest, p.tokens = token :: rest ∧
    (∀ op, token ≠ .keyword op) ∧ token.isDelimiter ')' = false := by
  cases p with
  | number n => exact ⟨_, _, rfl, by simp, rfl⟩
  | string text => exact ⟨_, _, rfl, by simp, rfl⟩
  | atom name => exact ⟨_, _, rfl, by simp, rfl⟩
  | closure params body =>
    exact ⟨.delimiter '{', _, by simp only [Primary.tokens]; rfl, by simp, rfl⟩
  | group op operands => exact ⟨.delimiter '(', _, by simp only [Primary.tokens]; rfl, by simp, rfl⟩
  | call callee count arguments =>
    exact ⟨.delimiter '(', _, by simp only [Primary.tokens]; rfl, by simp, rfl⟩

theorem Term.tokens_cases (e : Term) :
    ∃ token rest, e.tokens = token :: rest ∧ token.isDelimiter ')' = false := by
  cases e with
  | operation op operands => exact ⟨.keyword op, _, by simp only [Term.tokens]; rfl, rfl⟩
  | primary p =>
    obtain ⟨token, rest, htokens, -, hclose⟩ := p.tokens_cases
    exact ⟨token, rest, by simp only [Term.tokens, htokens], hclose⟩

/-! ## Nesting of delimiters -/

/-- A token that neither opens nor closes nor separates anything. -/
def Lexeme.isInert (token : Lexeme) : Bool :=
  !(token.isDelimiter '(' || token.isDelimiter ')' ||
    token.isDelimiter '{' || token.isDelimiter '}' || token.isDelimiter ',')

/-- Tokens whose parentheses and braces are properly nested. Outside of them there may be commas
only if the flag says so. -/
inductive Balanced : Bool → Tokens → Prop
  | nil {commas : Bool} : Balanced commas []
  | inert {commas : Bool} {token : Lexeme} : token.isInert = true → Balanced commas [token]
  | comma : Balanced true [.delimiter ',']
  | parens {commas : Bool} {inner : Tokens} : Balanced true inner →
    Balanced commas (.delimiter '(' :: inner ++ [.delimiter ')'])
  | braces {commas : Bool} {inner : Tokens} : Balanced true inner →
    Balanced commas (.delimiter '{' :: inner ++ [.delimiter '}'])
  | append {commas : Bool} {front back : Tokens} : Balanced commas front → Balanced commas back →
    Balanced commas (front ++ back)

namespace Balanced

variable {commas : Bool} {tokens : Tokens}

theorem cons {token : Lexeme} (htoken : token.isInert = true) (h : Balanced commas tokens) :
    Balanced commas (token :: tokens) :=
  (inert htoken).append h

theorem weaken (h : Balanced false tokens) : Balanced true tokens := by
  generalize hflag : false = flag at h
  induction h with
  | nil => exact .nil
  | inert htoken => exact .inert htoken
  | comma => cases hflag
  | parens h => exact .parens h
  | braces h => exact .braces h
  | append _ _ ih ih' => exact (ih hflag).append (ih' hflag)

theorem flatten {parts : List Tokens} (h : ∀ part ∈ parts, Balanced commas part) :
    Balanced commas parts.flatten := by
  induction parts with
  | nil => exact .nil
  | cons part parts ih =>
    exact (h part (List.mem_cons_self ..)).append
      (ih fun other hother => h other (List.mem_cons_of_mem _ hother))

theorem joinArguments {arguments : List Tokens}
    (h : ∀ argument ∈ arguments, Balanced true argument) :
    Balanced true (BraceLang.joinArguments arguments) := by
  induction arguments with
  | nil => exact .nil
  | cons argument arguments ih =>
    have hhead := h argument (List.mem_cons_self ..)
    have htail := ih fun other hother => h other (List.mem_cons_of_mem _ hother)
    cases arguments with
    | nil => exact hhead
    | cons next arguments => exact hhead.append (comma.append htail)

theorem params (params : List Param) : Balanced commas (params.flatMap Param.tokens) := by
  induction params with
  | nil => exact .nil
  | cons p params ih =>
    refine Balanced.append ?_ ih
    unfold Param.tokens
    cases p.mode with
    | eager => exact .inert rfl
    | deferred => exact .cons rfl (.inert rfl)

/-- What stands between the braces of a closure. -/
theorem closureInner (params : List Param) {body : Tokens} (h : Balanced false body) :
    Balanced true (params.flatMap Param.tokens ++ .delimiter ':' :: body) :=
  (Balanced.params params).append (.cons rfl h.weaken)

/-- What stands between the parentheses of a keyword with its operands. -/
theorem groupInner (op : Keyword) {operands : List Tokens}
    (h : ∀ operand ∈ operands, Balanced false operand) :
    Balanced true (.keyword op :: operands.flatten) :=
  .cons rfl (.flatten fun operand hoperand => (h operand hoperand).weaken)

/-- What stands between the parentheses of a call. -/
theorem callInner {callee : Tokens} {arguments : List Tokens} (h : Balanced false callee)
    (hargs : ∀ argument ∈ arguments, Balanced false argument) :
    Balanced true (callee ++ BraceLang.joinArguments arguments) :=
  h.weaken.append (.joinArguments fun argument hmem => (hargs argument hmem).weaken)

end Balanced

mutual

theorem Term.balanced_tokens : (e : Term) → Balanced false e.tokens
  | .operation op operands => by
    simp only [Term.tokens]
    refine .cons rfl (.flatten fun part hpart => ?_)
    obtain ⟨i, rfl⟩ := List.mem_ofFn.mp hpart
    exact (operands i).balanced_tokens
  | .primary p => by
    simp only [Term.tokens]
    exact p.balanced_tokens

theorem Primary.balanced_tokens : (p : Primary) → Balanced false p.tokens
  | .number n => by
    simp only [Primary.tokens]
    exact .inert rfl
  | .string text => by
    simp only [Primary.tokens]
    exact .inert rfl
  | .atom name => by
    simp only [Primary.tokens]
    exact .inert rfl
  | .closure params body => by
    simp only [Primary.tokens]
    exact .braces (.closureInner params body.balanced_tokens)
  | .group op operands => by
    simp only [Primary.tokens]
    refine .parens (.groupInner op fun part hpart => ?_)
    obtain ⟨i, rfl⟩ := List.mem_ofFn.mp hpart
    exact (operands i).balanced_tokens
  | .call callee count arguments => by
    simp only [Primary.tokens]
    refine .parens (.callInner callee.balanced_tokens fun part hpart => ?_)
    obtain ⟨i, rfl⟩ := List.mem_ofFn.mp hpart
    exact (arguments i).balanced_tokens

end

theorem balanced_ofFn {count : Nat} (terms : Fin count → Term) :
    ∀ part ∈ List.ofFn fun i => (terms i).tokens, Balanced false part := by
  intro part hpart
  obtain ⟨i, rfl⟩ := List.mem_ofFn.mp hpart
  exact (terms i).balanced_tokens

/-! ## Splitting behind tokens that are nested -/

namespace Balanced

open Plain

variable {commas : Bool} {tokens rest left : Tokens}

theorem isDelimiter_of_isInert {token : Lexeme} (h : token.isInert = true) :
    token ≠ .delimiter '(' ∧ token ≠ .delimiter ')' ∧ token ≠ .delimiter '{' ∧
      token ≠ .delimiter '}' ∧ token ≠ .delimiter ',' := by
  refine ⟨?_, ?_, ?_, ?_, ?_⟩ <;> rintro rfl <;> cases h

/-- A body that starts with the tokens goes on behind them. -/
theorem splitBody (h : Balanced commas tokens) {open? : Nat} {body : Tokens}
    (hrest : Plain.splitBody open? rest = .ok (body, left)) :
    Plain.splitBody open? (tokens ++ rest) = .ok (tokens ++ body, left) := by
  induction h generalizing open? rest body with
  | nil => exact hrest
  | @inert _ token htoken =>
    obtain ⟨-, -, hopen, hclose, -⟩ := isDelimiter_of_isInert htoken
    simp [Plain.splitBody, hclose, hrest, bind, Except.bind, pure, Except.pure]
  | comma => simp [Plain.splitBody, hrest, bind, Except.bind, pure, Except.pure]
  | @parens _ inner _ ih =>
    have hclose : Plain.splitBody open? (.delimiter ')' :: rest) =
        .ok (.delimiter ')' :: body, left) := by
      simp [Plain.splitBody, hrest, bind, Except.bind, pure, Except.pure]
    have hinner := ih hclose
    simp [Plain.splitBody, hinner, bind, Except.bind, pure, Except.pure]
  | @braces _ inner _ ih =>
    have hclose : Plain.splitBody (open? + 1) (.delimiter '}' :: rest) =
        .ok (.delimiter '}' :: body, left) := by
      simp [Plain.splitBody, hrest, bind, Except.bind, pure, Except.pure]
    have hinner := ih hclose
    simp [Plain.splitBody, hinner, bind, Except.bind, pure, Except.pure]
  | append _ _ ih ih' =>
    rw [List.append_assoc, List.append_assoc]
    exact ih (ih' hrest)

/-- An argument that starts with the tokens goes on behind them. -/
theorem splitOpen (h : Balanced commas tokens) {parens braces : Nat}
    (hinside : commas = true → 0 < parens ∨ 0 < braces) {argument : Tokens} {separator : Separator}
    (hrest : Plain.splitOpen parens braces rest = .ok ((argument, separator), left)) :
    Plain.splitOpen parens braces (tokens ++ rest) =
      .ok ((tokens ++ argument, separator), left) := by
  induction h generalizing parens braces rest argument with
  | nil => exact hrest
  | @inert _ token htoken =>
    obtain ⟨hopen, hclose, hbrace, hend, hcomma⟩ := isDelimiter_of_isInert htoken
    have hseparator : separator? token = none := by simp [separator?]
    have hcount : countOpen token parens braces = .ok (parens, braces) := by
      simp [countOpen, hclose, hend]
    simp [Plain.splitOpen, hseparator, hcount, hrest, bind, Except.bind, pure, Except.pure]
  | comma =>
    have hcount : countOpen (.delimiter ',') parens braces = .ok (parens, braces) := by
      simp [countOpen]
    rcases hinside rfl with hparens | hbraces
    · obtain ⟨parens, rfl⟩ := Nat.exists_eq_succ_of_ne_zero (Nat.ne_of_gt hparens)
      simp [Plain.splitOpen, hcount, hrest, bind, Except.bind, pure, Except.pure]
    · obtain ⟨braces, rfl⟩ := Nat.exists_eq_succ_of_ne_zero (Nat.ne_of_gt hbraces)
      simp [Plain.splitOpen, hcount, hrest, bind, Except.bind, pure, Except.pure]
  | @parens _ inner _ ih =>
    have hclose : Plain.splitOpen (parens + 1) braces (.delimiter ')' :: rest) =
        .ok ((.delimiter ')' :: argument, separator), left) := by
      simp [Plain.splitOpen, countOpen, hrest, bind, Except.bind, pure, Except.pure]
    have hinner := ih (fun _ => .inl (Nat.succ_pos _)) hclose
    simp [Plain.splitOpen, separator?, countOpen, hinner, bind, Except.bind, pure, Except.pure]
  | @braces _ inner _ ih =>
    have hclose : Plain.splitOpen parens (braces + 1) (.delimiter '}' :: rest) =
        .ok ((.delimiter '}' :: argument, separator), left) := by
      simp [Plain.splitOpen, separator?, countOpen, hrest, bind, Except.bind, pure, Except.pure]
    have hinner := ih (fun _ => .inr (Nat.succ_pos _)) hclose
    simp [Plain.splitOpen, separator?, countOpen, hinner, bind, Except.bind, pure, Except.pure]
  | append _ _ ih ih' =>
    rw [List.append_assoc, List.append_assoc]
    exact ih hinside (ih' hinside hrest)

/-- Groups that are skipped go on behind the tokens. -/
theorem splitGroups (h : Balanced commas tokens) {closer : Char} {outer : List Char} :
    Plain.splitGroups (closer :: outer) (tokens ++ rest) =
      Plain.splitGroups (closer :: outer) rest := by
  induction h generalizing closer outer rest with
  | nil => rfl
  | @inert _ token htoken =>
    -- `simp` finds the other cases of the match excluded by these facts
    obtain ⟨hopen, hclose, hbrace, hend, -⟩ := isDelimiter_of_isInert htoken
    simp [Plain.splitGroups]
  | comma => simp [Plain.splitGroups]
  | @parens _ inner _ ih => simp [Plain.splitGroups, ih]
  | @braces _ inner _ ih => simp [Plain.splitGroups, ih]
  | append _ _ ih ih' =>
    rw [List.append_assoc, ih, ih']

end Balanced

end BraceLang
