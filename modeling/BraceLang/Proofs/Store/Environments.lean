import BraceLang.Proofs.Denotation.Calls
import BraceLang.Proofs.Store.Staleness

/-!
# Names in environments

An environment that was made by extending the empty one is a list of association lists. Looking a
name up in it is looking it up in these, the newest first, however long they are and whatever they
bind: a value that is an atom is never taken for a name. As a frame is shared and never changed,
nothing that is done with the store later makes a difference, in particular no extension by a child.

* `Environment.MadeOf`: environments and the frames that they were extended by.
* `Environment.MadeOf.shows`: the frames are stored as they were given.
* `Environment.lookup_of_madeOf`: looking up a name, at once and later.
-/

namespace BraceLang

/-- Something that is done with a store and its environments between two resets. -/
inductive ScopeOp where
  /-- put a frame in front of an environment -/
  | extend (env : Environment) (bindings : List (TextRef × Value))
  | store (op : StoreOp) : op ≠ .reset → ScopeOp

/-- The store behind an operation, which may have failed. -/
def ScopeOp.after (s : Store) : ScopeOp → Store
  | extend env bindings => stateOf (env.extend bindings s)
  | store op _ => stateOf (op.onStore s)

theorem ScopeOp.grows_after (op : ScopeOp) (s : Store) : s.Grows (op.after s) := by
  cases op with
  | extend env bindings => exact env.keeps_extend bindings s
  | store op hop => exact Store.grows_onStore hop s

theorem ScopeOp.grows_afterAll (ops : List ScopeOp) (s : Store) :
    s.Grows (ops.foldl ScopeOp.after s) := by
  induction ops generalizing s with
  | nil => exact Std.Refl.refl s
  | cons op ops ih => exact IsTrans.trans _ _ _ (op.grows_after s) (ih _)

namespace Environment

/-- An environment that was made by extending the empty one by some frames, the newest of which is
listed first. Anything else may have been done with the store in between. -/
inductive MadeOf : Store → Environment → List (List (TextRef × Value)) → Prop
  | empty {s : Store} : s.Layout → MadeOf s {} []
  | extend {s s' : Store} {env inner : Environment} {frames : List (List (TextRef × Value))}
      {bindings : List (TextRef × Value)} : MadeOf s env frames →
    env.extend bindings s = .ok inner s' → MadeOf s' inner (bindings :: frames)
  | after {s : Store} {env : Environment} {frames : List (List (TextRef × Value))}
      (op : ScopeOp) : MadeOf s env frames → MadeOf (op.after s) env frames

/-! ## How frames are stored -/

/-- The value is a list of these names and values in turn. -/
def ShowsFrame (s : Store) (v : Value) (bindings : List (TextRef × Value)) : Prop :=
  ∃ l, v = .list l ∧ s.Chain l (bindings.flatMap Memory.bindingEntries)

/-- The environment is a list of these frames. -/
def Shows (s : Store) (env : Environment) (frames : List (List (TextRef × Value))) : Prop :=
  ∃ values, s.Chain env.frames values ∧ List.Forall₂ (ShowsFrame s) values frames

variable {s s' : Store} {env inner : Environment} {frames : List (List (TextRef × Value))}
  {bindings : List (TextRef × Value)}

theorem Shows.mono (h : Shows s env frames) (hext : s.Extends s') : Shows s' env frames := by
  obtain ⟨values, hchain, hframes⟩ := h
  refine ⟨values, hchain.mono hext, hframes.imp ?_⟩
  rintro v bindings ⟨l, rfl, hentries⟩
  exact ⟨l, rfl, hentries.mono hext⟩

theorem Shows.extend (hs : s.Layout) (h : Shows s env frames)
    (hextend : env.extend bindings s = .ok inner s') : Shows s' inner (bindings :: frames) := by
  rw [extend_eq_bind] at hextend
  obtain ⟨frame, t, hframe, hextend⟩ := bind_eq_ok_iff.mp hextend
  obtain ⟨front, t', hpush, hend⟩ := bind_eq_ok_iff.mp hextend
  cases hend
  have hgrows := (Store.keeps_ofList _).of_ok hframe
  have hgrows' := (Store.keeps_push _ _).of_ok hpush
  obtain ⟨values, hchain, hframes⟩ :=
    (h.mono (Store.extends_of_grows hgrows)).mono (Store.extends_of_grows hgrows')
  obtain ⟨old, hold, -⟩ := h.mono (Store.extends_of_grows hgrows)
  have hentries := (Store.chain_of_ofList hs hframe).mono (Store.extends_of_grows hgrows')
  have hfront := Store.chain_of_push (hs.of_grows hgrows) hold hpush
  rw [(hold.mono (Store.extends_of_grows hgrows')).unique hchain] at hfront
  exact ⟨.list frame :: values, hfront, .cons ⟨frame, rfl, hentries⟩ hframes⟩

theorem MadeOf.shows (h : MadeOf s env frames) : s.Layout ∧ Shows s env frames := by
  induction h with
  | empty hs => exact ⟨hs, [], .nil, .nil⟩
  | extend _ hextend ih =>
    obtain ⟨hs, hshows⟩ := ih
    exact ⟨hs.of_grows ((keeps_extend _ _).of_ok hextend), hshows.extend hs hextend⟩
  | @after s _ _ op _ ih =>
    have hgrows := op.grows_after s
    exact ⟨ih.1.of_grows hgrows, ih.2.mono (Store.extends_of_grows hgrows)⟩

/-! ## Looking up -/

/-- Only every other entry is compared with the name. -/
theorem lookupEntries_eq (name : TextRef) (bindings : List (TextRef × Value)) :
    lookupEntries name ((bindings.flatMap Memory.bindingEntries).map .ok) =
      .ok (bindings.lookup name) := by
  induction bindings with
  | nil => rfl
  | cons binding bindings ih =>
    obtain ⟨key, bound⟩ := binding
    have hsame : (Value.atom key).same (.atom name) = (name == key) := by
      simp only [Value.same, Bool.beq_comm]
    simp only [List.flatMap_cons, Memory.bindingEntries, List.cons_append, List.nil_append,
      List.map_cons, lookupEntries, hsame, List.lookup_cons]
    cases name == key with
    | true => rfl
    | false => exact ih

theorem lookupFrames_eq (hs : s.Layout) (name : TextRef) {values : List Value}
    (h : List.Forall₂ (ShowsFrame s) values frames) :
    lookupFrames s name (values.map .ok) =
      .ok ((frames.findSome? (·.lookup name)).getD .absent) := by
  induction h with
  | nil => rfl
  | @cons v bindings values frames hframe _ ih =>
    obtain ⟨l, rfl, hentries⟩ := hframe
    simp only [List.map_cons, lookupFrames, hentries.items_eq hs, lookupEntries_eq, bind,
      Except.bind, List.findSome?_cons]
    cases bindings.lookup name with
    | some value => rfl
    | none => exact ih

theorem Shows.lookup_eq (hs : s.Layout) (h : Shows s env frames) (name : TextRef) :
    env.lookup s name = .ok ((frames.findSome? (·.lookup name)).getD .absent) := by
  obtain ⟨values, hchain, hframes⟩ := h
  unfold lookup
  rw [hchain.items_eq hs]
  exact lookupFrames_eq hs name hframes

/-- A name has the value of its first binding in the newest frame that has one, and is absent if
there is no such frame. It stays so whatever is done later in the same generation. -/
theorem lookup_of_madeOf (h : MadeOf s env frames) (name : TextRef) :
    env.lookup s name = .ok ((frames.findSome? (·.lookup name)).getD .absent) ∧
      ∀ ops : List ScopeOp,
        env.lookup (ops.foldl ScopeOp.after s) name = env.lookup s name := by
  obtain ⟨hs, hshows⟩ := h.shows
  refine ⟨hshows.lookup_eq hs name, fun ops => ?_⟩
  have hgrows := ScopeOp.grows_afterAll ops s
  have hlater := hshows.mono (Store.extends_of_grows hgrows)
  rw [hlater.lookup_eq (hs.of_grows hgrows), hshows.lookup_eq hs]

/-- A frame that binds a name twice, first to another name as an atom, and an empty frame in front
of it. -/
theorem lookup_of_madeOf_twice :
    ∃ (s s' : Store) (outer inner : Environment),
      ({} : Environment).extend [(⟨0, 0⟩, .atom ⟨1, 0⟩), (⟨0, 0⟩, .absent), (⟨1, 0⟩, .list .empty)]
        (Store.new 2 none) = .ok outer s ∧
      outer.extend [] s = .ok inner s' ∧
      inner.lookup s' ⟨0, 0⟩ = .ok (.atom ⟨1, 0⟩) ∧
      inner.lookup s' ⟨1, 0⟩ = .ok (.list .empty) ∧
      ∀ ops : List ScopeOp,
        inner.lookup (ops.foldl ScopeOp.after s') ⟨0, 0⟩ = inner.lookup s' ⟨0, 0⟩ := by
  have houter := eq_ok_of_resultOf? (by decide +kernel :
    resultOf? (({} : Environment).extend
      [(⟨0, 0⟩, .atom ⟨1, 0⟩), (⟨0, 0⟩, .absent), (⟨1, 0⟩, .list .empty)]
      (Store.new 2 none)) = some ⟨.chain ⟨6, 0⟩⟩)
  have hinner := eq_ok_of_resultOf? (by decide +kernel :
    resultOf? ((⟨.chain ⟨6, 0⟩⟩ : Environment).extend []
      (stateOf (({} : Environment).extend
        [(⟨0, 0⟩, .atom ⟨1, 0⟩), (⟨0, 0⟩, .absent), (⟨1, 0⟩, .list .empty)]
        (Store.new 2 none)))) = some ⟨.chain ⟨7, 0⟩⟩)
  have hmade := ((MadeOf.empty (Store.layout_new 2 none fitsBlock)).extend houter).extend hinner
  have hx := lookup_of_madeOf hmade ⟨0, 0⟩
  exact ⟨_, _, _, _, houter, hinner, hx.1, (lookup_of_madeOf hmade ⟨1, 0⟩).1, hx.2⟩

end Environment

end BraceLang
