import BraceLang.Proofs.Denotation.Basic

/-!
# The text of values and data

A value is written as the datum that it stands for. Writing a value takes no more levels than its
memory allows: a value has at most one level more than there are cells in use, and from a closure
inside it one step leads to the value in a slot, which is written without its environments.

* `Memory.render_eq`: the text of a value is that of its datum, so every value has one.
* `Memory.renderToken_eq`, `Memory.renderTokens_eq`: tokens are written as their lexemes.
-/

namespace BraceLang.Memory

variable {m : Memory}

/-! ## Lists of texts -/

theorem mapM_eq_ok_of_forall₂ {α β γ ε : Type} {R : α → β → Prop} {write : α → Except ε γ}
    {text : β → γ} {values : List α} {items : List β} (h : List.Forall₂ R values items)
    (hwrite : ∀ v d, R v d → write v = .ok (text d)) :
    values.mapM write = .ok (items.map text) := by
  induction h with
  | nil => rfl
  | cons hhead _ ih =>
    rw [List.mapM_cons, hwrite _ _ hhead, ih]
    rfl

theorem eachItem_eq (hs : m.store.Layout) {α : Type} {write : Value → Except EvalError α}
    {l : ListRef} {values : List Value} (hc : m.store.Chain l values) :
    m.eachItem write l = values.mapM write := by
  unfold eachItem
  rw [hc.items_eq hs, List.mapM_map]
  rfl

theorem toList_mapError (hs : m.store.Layout) {l : ListRef} {values : List Value}
    (hc : m.store.Chain l values) :
    (m.store.toList l).mapError EvalError.ofStore = .ok values := by
  rw [hc.toList_eq hs]
  rfl

/-- A list is empty exactly if what it stands for is. -/
theorem isEmpty_eq {α : Type} {R : Value → α → Prop} {s : Store} {l : ListRef}
    {values : List Value} {items : List α} (hc : s.Chain l values)
    (h : List.Forall₂ R values items) : l.isEmpty = items.isEmpty := by
  cases hc <;> cases h <;> rfl

/-! ## Tokens -/

theorem textOf_eq {ref : TextRef} {text : List Char} (h : m.texts.Names ref text) :
    m.textOf ref = .ok text := by
  unfold TextTable.Names at h
  simp [textOf, h, Except.map, Except.mapError]

theorem valueWith_token {part : Detail → Value → Except EvalError (List Char)} {detail : Detail}
    {v : Value} {token : Lexeme} (h : m.texts.DenotesToken v token) :
    m.valueWith part detail v = .ok token.text := by
  cases h with
  | delimiter => rfl
  | string hname => simp [valueWith, textOf_eq hname, Lexeme.text, Functor.map, Except.map]
  | number => rfl
  | keyword => rfl
  | atom hname => simp [valueWith, textOf_eq hname, Lexeme.text]

theorem valueWithin_token {fuel : Nat} (hfuel : 0 < fuel) {detail : Detail} {v : Value}
    {token : Lexeme} (h : m.texts.DenotesToken v token) :
    m.valueWithin fuel detail v = .ok token.text := by
  cases fuel with
  | zero => omega
  | succ fuel => exact valueWith_token h

theorem isDelimiter_eq {t : TextTable} {v : Value} {token : Lexeme} (h : t.DenotesToken v token)
    (c : Char) : v.isDelimiter c = token.isDelimiter c := by
  cases h <;> rfl

theorem spaced_eq {t : TextTable} {values : List Value} {tokens : Tokens}
    (h : List.Forall₂ t.DenotesToken values tokens) (glued : Bool) :
    spaced glued (List.zip values (tokens.map Lexeme.text)) = Lexeme.spaced glued tokens := by
  induction h generalizing glued with
  | nil => rfl
  | @cons v token values tokens hhead _ ih =>
    have hcloses : closes v = token.closes := by
      simp only [closes, Lexeme.closes, isDelimiter_eq hhead]
    have hopens : opens v = token.opens := by
      simp only [opens, Lexeme.opens, isDelimiter_eq hhead]
    simp only [List.map_cons, List.zip_cons_cons, spaced, Lexeme.spaced, hcloses, hopens, ih]

/-- A token list is written with the spacing of program text. -/
theorem tokensWith_eq (hs : m.store.Layout) {part : Detail → Value → Except EvalError (List Char)}
    {l : ListRef} {tokens : Tokens} (h : m.DenotesTokens l tokens)
    (hpart : ∀ v token, m.texts.DenotesToken v token → part .brief v = .ok token.text) :
    m.tokensWith part l = .ok (Lexeme.spaced true tokens) := by
  obtain ⟨values, hchain, htokens⟩ := h
  have hpairs : values.mapM (fun token => (token, ·) <$> part .brief token) =
      .ok (List.zip values (tokens.map Lexeme.text)) := by
    clear hchain
    induction htokens with
    | nil => rfl
    | cons hhead _ ih =>
      rw [List.mapM_cons, hpart _ _ hhead, ih]
      rfl
  unfold tokensWith
  rw [eachItem_eq hs hchain, hpairs]
  exact congrArg Except.ok (spaced_eq htokens true)

/-! ## Closures -/

variable {part : Value → Datum Tokens → Prop}

theorem closureOfList_eq (hs : m.store.Layout) {parts f b e : ListRef}
    (hc : m.store.Chain parts [.list f, .list b, .list e]) :
    Closure.ofList m.store parts = .ok ⟨f, b, e⟩ := by
  unfold Closure.ofList
  rw [toList_mapError hs hc]
  rfl

theorem formalList_eq (hs : m.store.Layout) {c : Closure} {formals : List Formal}
    (hc : m.store.Chain c.formals (formals.flatMap Closure.entriesOf)) :
    c.formalList m.store = .ok formals := by
  unfold Closure.formalList
  rw [toList_mapError hs hc]
  exact Closure.formalsOf_entries formals

theorem formal_eq {f : Formal} {p : Param} (h : m.texts.DenotesFormal f p) :
    m.formal f = .ok p.text := by
  simp only [formal, textOf_eq h.name, h.mode, Param.text]
  rfl

/-- A closure is written when its tokens and its environment are. -/
theorem closureWith_eq (hs : m.store.Layout) {write : Detail → Value → Except EvalError (List Char)}
    {detail : Detail} {parts f b e : ListRef} {formals : List Formal} {params : List Param}
    {body : Tokens} {behind : List Char} (hparts : m.store.Chain parts [.list f, .list b, .list e])
    (hformals : m.store.Chain f (formals.flatMap Closure.entriesOf))
    (hparams : List.Forall₂ m.texts.DenotesFormal formals params) (hbody : m.DenotesTokens b body)
    (hwrite : ∀ v token, m.texts.DenotesToken v token → write .brief v = .ok token.text)
    (hbehind : m.environmentWith write detail e = .ok behind) :
    m.closureWith write detail parts = .ok (closureText params body behind) := by
  have hempty : b.isEmpty = body.isEmpty := by
    obtain ⟨values, hchain, htokens⟩ := hbody
    exact isEmpty_eq hchain htokens
  have hheads : formals.mapM m.formal = .ok (params.map Param.text) :=
    mapM_eq_ok_of_forall₂ hparams fun _ _ => formal_eq
  unfold closureWith
  simp only [closureOfList_eq hs hparts, bind, Except.bind]
  rw [formalList_eq hs hformals]
  simp only [hheads, tokensWith_eq hs hbody hwrite, hbehind, hempty]
  rfl

/-- In brief, an environment is only marked. -/
theorem environmentWith_brief {write : Detail → Value → Except EvalError (List Char)} {e : ListRef}
    {scope : Scope Tokens} (h : m.DenotesScope part e scope) :
    m.environmentWith write .brief e =
      .ok (if scope.isEmpty then [] else " where ...".toList) := by
  obtain ⟨values, hchain, hframes⟩ := h
  unfold environmentWith
  rw [isEmpty_eq hchain hframes]
  cases scope.isEmpty <;> rfl

/-! ## Values -/

/-- In brief, a value takes as many levels as it is nested. -/
theorem valueWithin_brief (hs : m.store.Layout) {depth fuel : Nat} {v : Value} {d : Datum Tokens}
    (h : m.DenotesWithin depth v d) (hfuel : depth < fuel) :
    m.valueWithin fuel .brief v = .ok d.brief := by
  induction depth generalizing fuel v d with
  | zero => exact h.elim
  | succ depth ih =>
    cases fuel with
    | zero => omega
    | succ fuel =>
      have hparts : ∀ v d, m.DenotesWithin depth v d → m.valueWithin fuel .brief v = .ok d.brief :=
        fun v d h => ih h (Nat.lt_of_succ_lt_succ hfuel)
      unfold valueWithin
      cases h with
      | number => rfl
      | string hname => simp [valueWith, textOf_eq hname, Datum.brief, Functor.map, Except.map]
      | list hchain hitems =>
        simp only [valueWith, eachItem_eq hs hchain, mapM_eq_ok_of_forall₂ hitems hparts,
          Datum.brief, Datum.briefs_eq_map]
        rfl
      | closure hparts hformals hparams hbody hscope =>
        exact closureWith_eq hs hparts hformals hparams hbody
          (fun _ _ => valueWithin_token (by omega)) (environmentWith_brief hscope)

theorem slot_eq {ref : SlotRef} (hgeneration : ref.generation = m.store.generation)
    (hindex : ref.index < m.store.slots.size) :
    m.store.slot ref = .ok m.store.slots[ref.index] :=
  Store.slot_eq_ok_iff.mpr ⟨hgeneration, Array.getElem?_eq_getElem hindex⟩

variable {slots : Slots Tokens}

/-- A bound value is written in brief. A value in a slot takes two levels more than the deepest
value of the memory. -/
theorem valueWithin_bound (hs : m.store.Layout) (hslots : m.DenotesSlots slots) {depth fuel : Nat}
    {v : Value} {b : Bound Tokens} (h : m.DenotesBound (m.DenotesWithin depth) v b)
    (hfuel : depth < fuel) (hslot : 0 < slots.size → m.store.used + 2 < fuel) :
    m.valueWithin fuel .brief v = .ok (b.text slots) := by
  cases h with
  | value h => exact valueWithin_brief hs h hfuel
  | @slot ref hgeneration hindex =>
    have hused := hslot (by rw [hslots.size]; omega)
    have hvalue := hslots.value (Array.getElem?_eq_getElem hindex)
    obtain ⟨fuel, rfl⟩ : ∃ n, fuel = n + 1 := ⟨fuel - 1, by omega⟩
    simp only [valueWithin, valueWith, slot_eq hgeneration hindex, Except.mapError, bind,
      Except.bind, Bound.text]
    generalize m.store.slots[ref.index].value? = value? at hvalue
    generalize slots.value? ref.index = datum? at hvalue
    cases hvalue with
    | some h => exact valueWithin_brief hs h (by omega)
    | none => rfl

theorem bindingsWith_eq {write : Detail → Value → Except EvalError (List Char)}
    {bindings : List (TextRef × Value)} {frame : Frame Tokens}
    (h : List.Forall₂ (m.DenotesBinding part) bindings frame)
    (hname : ∀ v token, m.texts.DenotesToken v token → write .brief v = .ok token.text)
    (hbound : ∀ v b, m.DenotesBound part v b → write .brief v = .ok (b.text slots)) :
    bindingsWith write (bindings.flatMap bindingEntries) =
      .ok (frame.map fun (name, bound) => name ++ '=' :: bound.text slots) := by
  induction h with
  | nil => rfl
  | cons hhead _ ih =>
    simp only [List.flatMap_cons, bindingEntries, List.cons_append, List.nil_append, bindingsWith,
      hname _ _ (.atom hhead.name), hbound _ _ hhead.bound, List.map_cons]
    simp only [bind, Except.bind, ih]
    rfl

theorem frameWith_eq (hs : m.store.Layout)
    {write : Detail → Value → Except EvalError (List Char)} {v : Value} {frame : Frame Tokens}
    (h : m.DenotesFrame part v frame)
    (hname : ∀ v token, m.texts.DenotesToken v token → write .brief v = .ok token.text)
    (hbound : ∀ v b, m.DenotesBound part v b → write .brief v = .ok (b.text slots)) :
    m.frameWith write v = .ok (frame.text slots) := by
  cases h with
  | list hchain hbindings =>
    simp only [frameWith, toList_mapError hs hchain, bind, Except.bind,
      bindingsWith_eq hbindings hname hbound]
    rfl

/-- In full, the frames of an environment are written out. -/
theorem environmentWith_full (hs : m.store.Layout)
    {write : Detail → Value → Except EvalError (List Char)} {e : ListRef} {scope : Scope Tokens}
    (h : m.DenotesScope part e scope)
    (hname : ∀ v token, m.texts.DenotesToken v token → write .brief v = .ok token.text)
    (hbound : ∀ v b, m.DenotesBound part v b → write .brief v = .ok (b.text slots)) :
    m.environmentWith write .full e =
      .ok (if scope.isEmpty then [] else scope.text slots) := by
  obtain ⟨values, hchain, hframes⟩ := h
  have htexts : m.eachItem (m.frameWith write) e = .ok (scope.map (Frame.text slots)) := by
    rw [eachItem_eq hs hchain]
    exact mapM_eq_ok_of_forall₂ hframes fun _ _ h => frameWith_eq hs h hname hbound
  unfold environmentWith
  rw [isEmpty_eq hchain hframes, htexts]
  cases scope.isEmpty <;> rfl

theorem valueWithin_full (hs : m.store.Layout) (hslots : m.DenotesSlots slots) {depth fuel : Nat}
    {v : Value} {d : Datum Tokens} (h : m.DenotesWithin depth v d) (hfuel : depth < fuel)
    (hslot : 0 < slots.size → depth + m.store.used + 2 < fuel) :
    m.valueWithin fuel .full v = .ok (d.full slots) := by
  induction depth generalizing fuel v d with
  | zero => exact h.elim
  | succ depth ih =>
    cases fuel with
    | zero => omega
    | succ fuel =>
      have hparts : ∀ v d, m.DenotesWithin depth v d →
          m.valueWithin fuel .full v = .ok (d.full slots) := fun v d h =>
        ih h (by omega) (by omega)
      unfold valueWithin
      cases h with
      | number => rfl
      | string hname => simp [valueWith, textOf_eq hname, Datum.full, Functor.map, Except.map]
      | list hchain hitems =>
        simp only [valueWith, eachItem_eq hs hchain, mapM_eq_ok_of_forall₂ hitems hparts,
          Datum.full, Datum.fulls_eq_map]
        rfl
      | closure hparts hformals hparams hbody hscope =>
        have hname : ∀ v token, m.texts.DenotesToken v token →
            m.valueWithin fuel .brief v = .ok token.text := fun _ _ => valueWithin_token (by omega)
        exact closureWith_eq hs hparts hformals hparams hbody hname
          (environmentWith_full hs hscope hname fun _ _ hb =>
            valueWithin_bound hs hslots hb (by omega) (by omega))

/-! ## Whole texts -/

/-- A value is written with as many levels as its memory allows, and in the same way with more. -/
theorem valueWithin_of_denotes (hs : m.store.Layout) (hslots : m.DenotesSlots slots) {fuel : Nat}
    {v : Value} {d : Datum Tokens} (h : m.Denotes v d) (hfuel : m.maxNesting ≤ fuel) :
    m.valueWithin fuel .full v = .ok (d.full slots) := by
  have hsize := hslots.size
  unfold maxNesting at hfuel
  exact valueWithin_full hs hslots h (by omega) (by omega)

/-- The text of a value is that of its datum. -/
theorem render_eq (hs : m.store.Layout) (hslots : m.DenotesSlots slots) {v : Value}
    {d : Datum Tokens} (h : m.Denotes v d) : m.render v = .ok (String.ofList (d.full slots)) := by
  unfold render
  rw [valueWithin_of_denotes hs hslots h (Nat.le_refl _)]
  rfl

theorem renderToken_eq {v : Value} {token : Lexeme} (h : m.texts.DenotesToken v token) :
    m.render v = .ok (String.ofList token.text) := by
  unfold render maxNesting
  rw [valueWithin_token (by omega) h]
  rfl

theorem renderTokens_eq (hs : m.store.Layout) {l : ListRef} {tokens : Tokens}
    (h : m.DenotesTokens l tokens) :
    m.renderTokens l = .ok (String.ofList (Lexeme.spaced true tokens)) := by
  unfold renderTokens maxNesting
  rw [tokensWith_eq hs h fun _ _ => valueWithin_token (by omega)]
  rfl

end BraceLang.Memory
