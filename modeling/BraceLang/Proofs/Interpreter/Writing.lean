import BraceLang.Proofs.Interpreter.Pushing
import BraceLang.Proofs.Reference.Doubling

/-!
# When a result can be written

The environment of a closure can lead back to the closure, through the slot of a deferred argument
or through several of them. Writing a value ends all the same: from a value the way goes through
its lists, which end, and through the frames of its closures, and behind a frame environments are
only marked. So a number of levels that the memory bounds is enough, and more of them change
nothing.

A machine need not have as many. The depth of an evaluation is limited, and its stack is made
longer where it has to be, but neither is done for the writer. So there is a number of calls of the
writer with which a value is written, and with fewer of them the program ends in the midst of it.

* `Memory.UpToRoom`: a computation that ends as another one does or runs out of levels.
* `Memory.exists_needed`: the levels that a value needs.
* `Interpreter.runOn_of_evalText`: a run fails where the evaluation fails, and writes the value if
  the machine has room for it.
* `Interpreter.runOn_programText`: values that can be computed and not be written.
-/

namespace BraceLang

namespace Memory

/-! ## Writing with fewer levels -/

/-- The first computation ends as the second one does, unless it runs out of levels. -/
def UpToRoom {α : Type} (r r' : Except EvalError α) : Prop :=
  r = r' ∨ r = .error (.badSyntax .endlessValue)

namespace UpToRoom

variable {α β : Type} {r r' r'' : Except EvalError α}

theorem refl (r : Except EvalError α) : UpToRoom r r := .inl rfl

theorem trans (h : UpToRoom r r') (h' : UpToRoom r' r'') : UpToRoom r r'' := by
  rcases h with rfl | rfl
  · exact h'
  · exact .inr rfl

theorem bind {k k' : α → Except EvalError β} (h : UpToRoom r r')
    (hk : ∀ a, UpToRoom (k a) (k' a)) : UpToRoom (r >>= k) (r' >>= k') := by
  rcases h with rfl | rfl
  · cases r with
    | ok a => exact hk a
    | error e => exact .inl rfl
  · exact .inr rfl

theorem map (h : UpToRoom r r') (f : α → β) : UpToRoom (f <$> r) (f <$> r') := by
  rcases h with rfl | rfl
  · exact .inl rfl
  · exact .inr rfl

theorem mapM {f g : β → Except EvalError α} (h : ∀ b, UpToRoom (f b) (g b)) (items : List β) :
    UpToRoom (items.mapM f) (items.mapM g) := by
  induction items with
  | nil => exact refl _
  | cons item items ih =>
    rw [List.mapM_cons, List.mapM_cons]
    exact (h item).bind fun a => ih.bind fun rest => refl _

end UpToRoom

section Parts

variable {part part' : Detail → Value → Except EvalError (List Char)} (m : Memory)

theorem upToRoom_eachItem {α : Type} {write write' : Value → Except EvalError α}
    (h : ∀ v, UpToRoom (write v) (write' v)) (l : ListRef) :
    UpToRoom (m.eachItem write l) (m.eachItem write' l) := by
  unfold eachItem
  exact .mapM (fun item : Except StoreError Value =>
    (UpToRoom.refl (item.mapError EvalError.ofStore)).bind h) _

variable (hpart : ∀ detail v, UpToRoom (part detail v) (part' detail v))
include hpart

theorem upToRoom_tokensWith (tokens : ListRef) :
    UpToRoom (m.tokensWith part tokens) (m.tokensWith part' tokens) :=
  (m.upToRoom_eachItem (fun token => (hpart .brief token).map (token, ·)) tokens).map _

theorem upToRoom_bindingsWith (entries : List Value) :
    UpToRoom (bindingsWith part entries) (bindingsWith part' entries) := by
  fun_induction bindingsWith part entries with
  | case1 => exact .refl _
  | case2 => exact .refl _
  | case3 name value rest ih =>
    exact (hpart .brief name).bind fun name => (hpart .brief value).bind fun value =>
      ih.bind fun rest => .refl _

theorem upToRoom_frameWith (frame : Value) :
    UpToRoom (m.frameWith part frame) (m.frameWith part' frame) := by
  cases frame with
  | list l =>
    exact (UpToRoom.refl _).bind fun entries =>
      (upToRoom_bindingsWith hpart entries).bind fun bindings => .refl _
  | _ => exact .refl _

theorem upToRoom_environmentWith (detail : Detail) (env : ListRef) :
    UpToRoom (m.environmentWith part detail env) (m.environmentWith part' detail env) := by
  unfold environmentWith
  split
  · exact .refl _
  · cases detail with
    | brief => exact .refl _
    | full =>
      exact (m.upToRoom_eachItem (m.upToRoom_frameWith hpart) env).bind fun frames => .refl _

theorem upToRoom_closureWith (detail : Detail) (parts : ListRef) :
    UpToRoom (m.closureWith part detail parts) (m.closureWith part' detail parts) := by
  unfold closureWith
  refine (UpToRoom.refl _).bind fun c => (UpToRoom.refl _).bind fun formals =>
    (UpToRoom.refl _).bind fun names => ?_
  exact (m.upToRoom_tokensWith hpart c.body).bind fun body =>
    (m.upToRoom_environmentWith hpart detail c.env).bind fun env => .refl _

theorem upToRoom_valueWith (detail : Detail) (v : Value) :
    UpToRoom (m.valueWith part detail v) (m.valueWith part' detail v) := by
  cases v with
  | list items => exact (m.upToRoom_eachItem (hpart detail) items).map _
  | closure parts => exact m.upToRoom_closureWith hpart detail parts
  | deferred slot =>
    refine (UpToRoom.refl _).bind fun slot => ?_
    cases slot.value? with
    | some value => exact hpart detail value
    | none => exact .refl _
  | mode mode => cases mode <;> exact .refl _
  | _ => exact .refl _

end Parts

/-- Another level changes nothing where the others were enough. -/
theorem upToRoom_succ (m : Memory) (levels : Nat) (detail : Detail) (v : Value) :
    UpToRoom (m.valueWithin levels detail v) (m.valueWithin (levels + 1) detail v) := by
  induction levels generalizing detail v with
  | zero => exact .inr rfl
  | succ levels ih => exact m.upToRoom_valueWith ih detail v

theorem upToRoom_of_le (m : Memory) {levels levels' : Nat} (h : levels ≤ levels')
    (detail : Detail) (v : Value) :
    UpToRoom (m.valueWithin levels detail v) (m.valueWithin levels' detail v) := by
  induction h with
  | refl => exact .refl _
  | step _ ih => exact ih.trans (m.upToRoom_succ _ detail v)

/-- A value that can be written needs a number of levels. With fewer of them writing runs out of
levels. -/
theorem exists_needed {m : Memory} {most : Nat} {detail : Detail} {v : Value} {text : List Char}
    (h : m.valueWithin most detail v = .ok text) :
    ∃ needed ≤ most, ∀ levels, m.valueWithin levels detail v =
      if needed ≤ levels then .ok text else .error (.badSyntax .endlessValue) := by
  classical
  have hexists : ∃ levels, m.valueWithin levels detail v = .ok text := ⟨most, h⟩
  refine ⟨Nat.find hexists, Nat.find_min' hexists h, fun levels => ?_⟩
  have hneeded := Nat.find_spec hexists
  by_cases hle : Nat.find hexists ≤ levels
  · rw [if_pos hle]
    rcases m.upToRoom_of_le hle detail v with heq | hout
    · rw [← heq, hneeded]
    · rw [hneeded] at hout
      cases hout
  · rw [if_neg hle]
    rcases m.upToRoom_of_le (Nat.le_of_not_le hle) detail v with heq | hout
    · exact absurd (heq.trans hneeded) (Nat.find_min hexists (Nat.lt_of_not_le hle))
    · exact hout

end Memory

namespace Interpreter

/-- After any calls, the value of a text stands for a datum, and a run of the text gives the text of
that datum. A run on a machine gives it too if the machine has room for it, and nothing otherwise.
Both fail where evaluating the text fails, for the same reason, and nowhere else. -/
theorem runOn_of_evalText (config : Config) (calls : List Call) (text : String) :
    let start := (new config).after calls
    match evalText text start with
    | .ok v i => ∃ d slots needed, i.memory.Denotes v d ∧ i.memory.DenotesSlots slots ∧
        needed ≤ i.memory.maxNesting ∧
        let written := String.ofList (d.full slots)
        run text start = .ok written i ∧
        ∀ room, runOn room text start =
          .ok (if needed ≤ room.calls ∧ written.utf8ByteSize ≤ room.bytes then some written
            else none) i
    | .error e i => run text start = .error e i ∧ ∀ room, runOn room text start = .error e i := by
  intro start
  have hagrees := agrees_evalText ((ready_new config).after calls) text
  cases hvalue : evalText text start with
  | error e i => exact ⟨bind_of_error hvalue, fun room => bind_of_error hvalue⟩
  | ok v i =>
    rw [hvalue] at hagrees
    generalize Plain.evalText config.lexicon text config.limits {} = result at hagrees
    cases hagrees with
    | @ok _ d _ core hfits hv =>
      have hlayout := hfits.memory.layout
      have hslots := hfits.memory.slots
      obtain ⟨needed, hle, hneeded⟩ := Memory.exists_needed
        (Memory.valueWithin_of_denotes hlayout hslots hv (Nat.le_refl _))
      refine ⟨d, core.slots, needed, hv, hslots, hle, ?_, fun room => ?_⟩
      · exact (bind_of_ok hvalue).trans (ask_of_ok (Memory.render_eq hlayout hslots hv))
      · refine (bind_of_ok hvalue).trans (ask_of_ok ?_)
        rw [Memory.renderOn, hneeded]
        by_cases hcalls : needed ≤ room.calls
        · simp only [hcalls, if_true, true_and]
        · simp only [hcalls, if_false, false_and]

/-- Two closures that reach each other and themselves. -/
example :
    (outcome (run "({!f !g: PUSH f PUSH g NIL} {: (g)}, {: (f)})" (new {}))).1.toOption =
      some ("[{: (g)} where [[f={: (g)} where ..., g={: (f)} where ...]], " ++
        "{: (f)} where [[f={: (g)} where ..., g={: (f)} where ...]]]") := by
  decide +kernel

end Interpreter

/-! ## A value that needs more room than its evaluation -/

/-- A list inside a number of lists needs more calls of the writer than that. -/
theorem Memory.valueWithin_nested {m : Memory} (hs : m.store.Layout) {n depth levels : Nat}
    {detail : Detail} {v : Value} (h : m.DenotesWithin depth v (Reference.nested n))
    (hle : levels ≤ n) : m.valueWithin levels detail v = .error (.badSyntax .endlessValue) := by
  induction levels generalizing n depth v with
  | zero => rfl
  | succ levels ih =>
    obtain ⟨n, rfl⟩ := Nat.exists_eq_add_one_of_ne_zero (Nat.ne_zero_of_lt hle)
    cases depth with
    | zero => exact h.elim
    | succ depth =>
      cases h with
      | @list l values _ hchain hitems =>
        obtain ⟨item, hitem, rfl⟩ : ∃ item,
            m.DenotesWithin depth item (Reference.nested n) ∧ values = [item] := by
          simpa [List.forall₂_cons_right_iff] using hitems
        have hinner := ih hitem (Nat.le_of_succ_le_succ hle)
        have hitems : m.eachItem (m.valueWithin levels detail) l =
            .error (.badSyntax .endlessValue) := by
          rw [eachItem_eq hs hchain, List.mapM_cons, hinner]
          rfl
        exact congrArg ((bracketed ∘ commas) <$> ·) hitems

namespace Interpreter

/-- After any calls, the program that puts the empty list into `2 ^ k` lists can be evaluated at a
depth that grows with `k`. On a machine that has no more calls of the writer than lists it ends
without an answer. -/
theorem runOn_programText {config : Config}
    (hdelimiters : config.delimiters = ({} : Config).delimiters)
    (hchunks : config.reserves (max config.chunkSize 1)) {k : Nat}
    (hdepth : 2 * k + 3 ≤ config.maxDepth) (hcells : 24 * k + 98 + 7 * 2 ^ k ≤ config.mostCells)
    (calls : List Call) :
    let start := (new config).after calls
    let text := Reference.programText k
    ∃ v i, evalText text start = .ok v i ∧ i.memory.Denotes v (Reference.nested (2 ^ k)) ∧
      ∀ room, room.calls ≤ 2 ^ k → runOn room text start = .ok none i := by
  intro start text
  have hlx : config.lexicon.Standard := ⟨congrArg String.toList hdelimiters, rfl⟩
  have hroom : config.limits.Room 0 (24 * k + 98 + 7 * 2 ^ k) :=
    Plain.room_limits hchunks (by rwa [Nat.zero_add])
  have hplain : Plain.evalText config.lexicon text config.limits {} =
      .ok (Reference.nested (2 ^ k)) ⟨24 * k + 98 + 7 * 2 ^ k, #[]⟩ := by
    rw [Reference.evalText_eq (Reference.lex_programText hlx k) config.limits,
      Reference.evaluateText_program hdepth hroom, mapResult, Reference.flat_nested,
      Reference.flatCore_of_used]
  have hagrees := agrees_evalText ((ready_new config).after calls) text
  rw [hplain] at hagrees
  generalize hvalue : evalText text start = result at hagrees
  cases hagrees with
  | @ok v _ i _ hfits hv =>
    refine ⟨v, i, rfl, hv, fun room hcalls => ?_⟩
    have hwrite : i.memory.valueWithin room.calls .full v = .error (.badSyntax .endlessValue) :=
      Memory.valueWithin_nested hfits.memory.layout hv hcalls
    refine (bind_of_ok hvalue).trans (ask_of_ok ?_)
    rw [Memory.renderOn, hwrite]

/-- The program with the exponent eighteen, with the usual settings. A stack of eight mebibytes has
thirty-two bytes for each of the lists that its value is nested in, and the writer needs more. -/
theorem runOn_doubled_overflows :
    let text := "((\x7bd: (d (d (d (d (d (d (d (d (d (d (d (d (d (d (d (d (d (d " ++
      "{x: PUSH x NIL}))))))))))))))))))\x7d {f: {x: (f (f x))}}) NIL)"
    ∃ v i, evalText text (new {}) = .ok v i ∧ i.memory.Denotes v (Reference.nested (2 ^ 18)) ∧
      ∀ room, room.calls ≤ 2 ^ 18 → runOn room text (new {}) = .ok none i := by
  intro text
  have htext : text = Reference.programText 18 := by decide +kernel
  rw [htext]
  exact @runOn_programText {} rfl (by decide) 18 (by decide) (by decide) []

end Interpreter

end BraceLang
