import BraceLang.Proofs.Denotation.Calls
import BraceLang.Proofs.Denotation.Rescanning
import BraceLang.Proofs.Store.Staleness

/-!
# Stores with a limit

A store with a limit has exactly that many cells. An operation that takes several cells succeeds if
they are all left, and adds just these. Otherwise it stops where the store is full: the cells that
it has taken are lost until the next reset, but they belong to no list that was there before, and
no chunk is added for cells that the store must not have.

* `TakesExactly`: how an operation ends that takes a number of cells.
* `Memory.Writes.takesExactly`: an operation that writes a number of cells ends so.
* `Store.limit_exact`: this holds of lists that are stored or reversed, of environments, closures
  and scanned texts, in every store that operations lead to.
-/

namespace BraceLang

/-- Every list and every slot that can be read is the same later. -/
structure Store.StaysReadable (s t : Store) : Prop where
  lists : ∀ l values, s.toList l = .ok values → t.toList l = .ok values
  slots : ∀ ref slot, s.slot ref = .ok slot → t.slot ref = .ok slot

/-- The result of an operation that takes a number of cells from a store with a limit. What it ends
with has a store in it, and there is one way in which it fails. -/
structure TakesExactly {ε σ α : Type} (storeOf : σ → Store) (refused : ε) (limit cells : Nat)
    (s : Store) (result : EStateM.Result ε σ α) : Prop where
  succeeds_iff : (∃ a t, result = .ok a t) ↔ s.used + cells ≤ limit
  adds : ∀ a t, result = .ok a t → (storeOf t).used = s.used + cells
  fails : ∀ e t, result = .error e t → e = refused ∧ (storeOf t).used = limit ∧
    (storeOf t).chunks.size ≤ max s.chunks.size (partsFor s.chunkSize limit)
  keeps : s.StaysReadable (storeOf (stateOf result))

namespace TakesExactly

variable {ε σ α : Type} {storeOf : σ → Store} {refused : ε} {limit cells : Nat} {s : Store} {t : σ}

theorem of_ok {a : α} (hroom : s.used + cells ≤ limit) (hused : (storeOf t).used = s.used + cells)
    (hkeeps : s.StaysReadable (storeOf t)) :
    TakesExactly storeOf refused limit cells s (.ok a t) where
  succeeds_iff := ⟨fun _ => hroom, fun _ => ⟨a, t, rfl⟩⟩
  adds := by
    rintro _ _ ⟨⟩
    exact hused
  fails := by rintro _ _ ⟨⟩
  keeps := hkeeps

theorem of_error (hroom : ¬ s.used + cells ≤ limit) (hused : (storeOf t).used = limit)
    (hchunks : (storeOf t).chunks.size ≤ max s.chunks.size (partsFor s.chunkSize limit))
    (hkeeps : s.StaysReadable (storeOf t)) :
    TakesExactly storeOf refused limit cells s (.error refused t : EStateM.Result ε σ α) where
  succeeds_iff := by
    refine ⟨?_, fun hall => absurd hall hroom⟩
    rintro ⟨_, _, ⟨⟩⟩
  adds := by rintro _ _ ⟨⟩
  fails := by
    rintro _ _ ⟨⟩
    exact ⟨rfl, hused, hchunks⟩
  keeps := hkeeps

end TakesExactly

namespace Store

variable {s : Store} {limit : Nat}

/-! ## Lists that can be read -/

/-- A list that can be read starts at a cell that the store has given out. -/
theorem issued_of_toList {l : ListRef} {values : List Value} (hs : s.Layout)
    (h : s.toList l = .ok values) : s.Issued l := by
  cases l with
  | empty => trivial
  | chain first =>
    cases hcell : s.cell first with
    | ok c => exact Or.inr ⟨generation_of_cell hcell, hs.index_lt hcell⟩
    | error e =>
      have hsplit : s.split (.chain first) = .error e := by simp [split, hcell, Except.map]
      obtain ⟨steps, hsteps⟩ : ∃ steps, s.maxSteps = steps + 1 :=
        ⟨_, (Nat.succ_pred_eq_of_pos (Nat.zero_lt_of_lt s.used_lt_maxSteps)).symm⟩
      rw [toList_eq_ok, items, hsteps] at h
      simp only [itemsWithin, hsplit] at h
      cases values <;> cases h

theorem Issued.mono {t : Store} {l : ListRef} (h : s.Issued l) (hext : s.Extends t) :
    t.Issued l := by
  cases l with
  | empty => trivial
  | chain first =>
    unfold Issued at h ⊢
    rw [hext.generation]
    exact h.imp_right fun hsame => ⟨hsame.1, Nat.lt_of_lt_of_le hsame.2 hext.used_le⟩

/-- The list that a value was put in front of starts at the cell that was given out for it. -/
theorem issued_of_push {t : Store} {l l' : ListRef} {value : Value} (hs : s.Layout)
    (h : push l value s = .ok l' t) : t.Issued l' := by
  rw [push_eq hs] at h
  split at h
  · cases h
  · cases h
    exact Or.inr ⟨rfl, Nat.lt_succ_self s.used⟩

theorem exists_of_length {l : ListRef} {length : Nat} (h : s.length l = .ok length) :
    ∃ values, s.toList l = .ok values ∧ values.length = length := by
  unfold Store.length at h
  cases hlist : s.toList l with
  | error e =>
    rw [hlist] at h
    cases h
  | ok values =>
    rw [hlist] at h
    cases h
    exact ⟨values, rfl, rfl⟩

theorem Refines.chain_of_toList {f : FlatStore} (h : s.Refines f) {l : ListRef}
    {values : List Value} (hlist : s.toList l = .ok values) : s.Chain l values := by
  obtain ⟨found, last, hreads, hlength, hover⟩ :=
    h.exists_reads (h.issued (issued_of_toList h.layout hlist))
  rw [toList_eq_ok, Store.items_of_reads hreads hlength hover] at hlist
  cases last with
  | empty =>
    have hchain := (chain_of_reads hreads).toList_eq h.layout
    have hread : s.toList l = .ok values := by
      rw [toList_eq_ok, Store.items_of_reads hreads hlength hover]
      exact hlist
    rw [hchain] at hread
    cases hread
    exact chain_of_reads hreads
  | chain first =>
    -- a list that goes on in an earlier generation cannot be read
    have hmem : Except.error (StoreError.staleCell first.index) ∈ values.map Except.ok := by
      rw [← hlist]
      exact List.mem_append_right _ List.mem_cons_self
    simp at hmem

/-! ## Stores with a limit -/

/-- A store with a limit that is in order and for which memory and indices can be had. -/
structure Limited (limit : Nat) (s : Store) : Prop where
  layout : s.Layout
  maxCells : s.maxCells = some limit
  limit_le : limit ≤ indexCount
  used_le : s.used ≤ limit
  reserves : s.reserves s.chunkSize = true
  chain : ∀ l values, s.toList l = .ok values → s.Chain l values

/-- What operations do not change, and what they keep. -/
theorem limits_replay (ops : List StoreOp) (hlimit : s.maxCells = some limit)
    (hused : s.used ≤ limit) :
    (replay StoreOp.onStore ops s).2.maxCells = some limit ∧
      (replay StoreOp.onStore ops s).2.chunkSize = s.chunkSize ∧
      (replay StoreOp.onStore ops s).2.reserves = s.reserves ∧
      (replay StoreOp.onStore ops s).2.used ≤ limit := by
  induction ops generalizing s with
  | nil => exact ⟨hlimit, rfl, rfl, hused⟩
  | cons op ops ih =>
    obtain ⟨hlimit', hchunk', hreserves', hused'⟩ :
        (stateOf (op.onStore s)).maxCells = some limit ∧
        (stateOf (op.onStore s)).chunkSize = s.chunkSize ∧
        (stateOf (op.onStore s)).reserves = s.reserves ∧
        (stateOf (op.onStore s)).used ≤ limit := by
      rcases grows_or_reset op s with hgrows | hreset
      · have hext := extends_of_grows hgrows
        exact ⟨hext.maxCells.trans hlimit, hext.chunkSize, hext.reserves,
          used_le_of_grows hgrows (fun _ hfree => (limitReached?_eq_none_iff.mp hfree).1 _ hlimit)
            hused⟩
      · rw [hreset]
        exact ⟨hlimit, rfl, rfl, Nat.zero_le limit⟩
    obtain ⟨hlast, hchunk, hreserves, hleft⟩ := ih hlimit' hused'
    exact ⟨hlast, hchunk.trans hchunk', hreserves.trans hreserves', hleft⟩

theorem limited_replay {reserves : Nat → Bool} {chunkSize : Nat}
    (hr : reserves (max chunkSize 1) = true) (hindex : limit ≤ indexCount) {ops : List StoreOp}
    (h : (FlatStore.new chunkSize (some limit) reserves).Accepts ops) :
    Limited limit (replay StoreOp.onStore ops (new chunkSize (some limit) reserves)).2 := by
  obtain ⟨-, hrefines⟩ := (Refines.new chunkSize (some limit) reserves).replay h
  obtain ⟨hlimit, hchunk, hreserves, hused⟩ :=
    limits_replay (s := new chunkSize (some limit) reserves) ops rfl (Nat.zero_le limit)
  refine ⟨hrefines.layout, hlimit, hindex, hused, ?_, fun l values => hrefines.chain_of_toList⟩
  rw [hchunk, hreserves]
  exact hr

/-- A limit that is not above the number of indices is what refuses a cell. -/
theorem Limited.refusalAt?_eq_none_iff (h : Limited limit s) (used : Nat) :
    s.refusalAt? used = none ↔ used < limit := by
  rw [refusalAt?, refusal?_eq_none_iff, h.maxCells]
  constructor
  · rintro ⟨hroom, -, -⟩
    exact hroom limit rfl
  · intro hlt
    refine ⟨?_, Nat.lt_of_lt_of_le hlt h.limit_le, h.reserves⟩
    rintro _ ⟨⟩
    exact hlt

theorem Limited.of_refusalAt?_eq_some (h : Limited limit s) {used : Nat} {cause : StoreError}
    (hrefusal : s.refusalAt? used = some cause) :
    cause = .exhausted limit ∧ limit ≤ used := by
  have hle : limit ≤ used := by
    refine Nat.le_of_not_lt fun hlt => ?_
    rw [(h.refusalAt?_eq_none_iff used).mpr hlt] at hrefusal
    cases hrefusal
  rw [refusalAt?, h.maxCells] at hrefusal
  simp only [refusal?, limitReached?, Option.bind_some, if_pos hle, Option.some_or] at hrefusal
  cases hrefusal
  exact ⟨rfl, hle⟩

end Store

namespace Memory

variable {α : Type} {m m' : Memory} {limit cells : Nat} {Q : Memory → α → Prop}

theorem grants_iff_of_limited (h : Store.Limited limit m.store) :
    m.Grants cells ↔ m.store.used + cells ≤ limit := by
  have hused := h.used_le
  unfold Grants
  simp only [h.refusalAt?_eq_none_iff]
  constructor
  · intro hall
    cases cells with
    | zero => exact hused
    | succ cells => exact hall cells (Nat.lt_succ_self cells)
  · intro hle i hi
    omega

theorem Wrote.staysReadable (h : m.Wrote cells m') (hs : Store.Limited limit m.store) :
    m.store.StaysReadable m'.store where
  lists := fun l values hl =>
    ((hs.chain l values hl).mono h.extension.store).toList_eq h.layout
  slots := fun ref slot hslot => by
    rw [← hslot]
    simp only [Store.slot, h.slots, h.extension.store.generation]

theorem Writes.takesExactly {result : EStateM.Result EvalError Memory α}
    (h : Writes m cells Q result) (hs : Store.Limited limit m.store) :
    TakesExactly Memory.store (.allocationFailure (.exhausted limit)) limit cells m.store
      result := by
  cases h with
  | ok hgranted hwrote _ =>
    exact .of_ok ((grants_iff_of_limited hs).mp hgranted) hwrote.used (hwrote.staysReadable hs)
  | @error cause taken m' htaken hgranted hwrote hrefusal =>
    rw [hwrote.extension.store.refusalAt?_eq] at hrefusal
    obtain ⟨rfl, hle⟩ := hs.of_refusalAt?_eq_some hrefusal
    have hroom := (grants_iff_of_limited hs).mp hgranted
    have hused := hwrote.used
    have hfull : m'.store.used = limit := by omega
    have hchunks := hwrote.chunks
    rw [hfull] at hchunks
    exact .of_error (by omega) hfull hchunks (hwrote.staysReadable hs)

/-! ## Operations that take several cells -/

section Operations

variable (hs : m.store.Layout) (ht : m.texts.Distinct)
include hs ht

theorem writes_ofList (values : List Value) :
    Writes m values.length (fun m' l => m'.store.Chain l values)
      (Memory.ofStoreM (Store.ofList values) m) := by
  induction values with
  | nil => exact .ok (grants_zero m) (.refl hs ht) .nil
  | cons value values ih =>
    rw [Store.ofList_cons, ofStoreM_bind]
    refine ih.bind rfl fun l m' hwrote hl => ?_
    exact (writes_push hwrote.layout hwrote.distinct l value).mono fun m'' l' h => h values hl

/-- The entries of a frame are followed by the cell that links it to the other frames. -/
theorem writes_extend (env : Environment) (bindings : List (TextRef × Value)) :
    Writes m (2 * bindings.length + 1) (fun _ _ => True)
      (Memory.ofStoreM (env.extend bindings) m) := by
  have hlength : (bindings.flatMap bindingEntries).length = 2 * bindings.length :=
    length_flatMap_pairs (fun _ => rfl) bindings
  rw [extend_eq_bind, ofStoreM_bind, ← hlength]
  refine (writes_ofList hs ht _).bind rfl fun frame m' hwrote _ => ?_
  rw [ofStoreM_bind]
  refine (writes_push hwrote.layout hwrote.distinct _ _).bind (Nat.add_zero 1).symm
    fun frames m'' hwrote' _ => ?_
  exact .ok (grants_zero m'') (.refl hwrote'.layout hwrote'.distinct) trivial

theorem writes_build (c : Closure) :
    Writes m 3 (fun _ _ => True) (Memory.ofStoreM c.build m) := by
  have hbuild : c.build =
      Store.ofList [.list c.formals, .list c.body, .list c.env] >>= fun l =>
        pure (.closure l) := by
    rw [Closure.build, ← bind_pure_comp]
  rw [hbuild, ofStoreM_bind]
  refine (writes_ofList hs ht _).bind (Nat.add_zero 3).symm fun l m' hwrote _ => ?_
  exact .ok (grants_zero m') (.refl hwrote.layout hwrote.distinct) trivial

end Operations

end Memory

/-! ## The stores that operations lead to -/

theorem Memory.exists_toValue (token : Lexeme) (m : Memory) :
    ∃ value m', token.toValue m = .ok value m' ∧ m'.store = m.store := by
  cases token <;> exact ⟨_, _, rfl, rfl⟩

/-- The store is what some operations lead to, each of which may have failed. -/
def Store.Reached (reserves : Nat → Bool) (chunkSize limit : Nat) (s : Store) : Prop :=
  ∃ ops, (FlatStore.new chunkSize (some limit) reserves).Accepts ops ∧
    (replay StoreOp.onStore ops (new chunkSize (some limit) reserves)).2 = s

namespace Store.Reached

variable {reserves : Nat → Bool} {chunkSize limit : Nat} {s : Store}

theorem exists_refines (h : Reached reserves chunkSize limit s) : ∃ f, s.Refines f := by
  obtain ⟨ops, haccepts, rfl⟩ := h
  exact ⟨_, ((Refines.new chunkSize (some limit) reserves).replay haccepts).2⟩

theorem layout (h : Reached reserves chunkSize limit s) : s.Layout := by
  obtain ⟨f, hrefines⟩ := h.exists_refines
  exact hrefines.layout

theorem step {op : StoreOp} (h : Reached reserves chunkSize limit s)
    (htakes : ∀ f, s.Refines f → f.Takes op) :
    Reached reserves chunkSize limit (stateOf (op.onStore s)) := by
  obtain ⟨ops, haccepts, rfl⟩ := h
  have hrefines := ((Refines.new chunkSize (some limit) reserves).replay haccepts).2
  exact ⟨ops ++ [op], FlatStore.accepts_concat.mpr ⟨haccepts, htakes _ hrefines⟩,
    replay_concat StoreOp.onStore ops op _⟩

theorem push (h : Reached reserves chunkSize limit s) {l : ListRef} (hl : s.Issued l)
    (value : Value) : Reached reserves chunkSize limit (stateOf (Store.push l value s)) := by
  have hstep : Reached reserves chunkSize limit (stateOf ((StoreOp.push l value).onStore s)) :=
    h.step fun f hrefines => hrefines.issued hl
  rwa [StoreOp.onStore, stateOf_map] at hstep

theorem ofList (h : Reached reserves chunkSize limit s) (values : List Value) :
    Reached reserves chunkSize limit (stateOf (Store.ofList values s)) := by
  have hstep : Reached reserves chunkSize limit (stateOf ((StoreOp.ofList values).onStore s)) :=
    h.step fun _ _ => trivial
  rwa [StoreOp.onStore, stateOf_map] at hstep

/-- An environment is extended by a list that is stored and a push. -/
theorem extend (h : Reached reserves chunkSize limit s) {env : Environment}
    (henv : s.Issued env.frames) (bindings : List (TextRef × Value)) :
    Reached reserves chunkSize limit (stateOf (env.extend bindings s)) := by
  have hlist := h.ofList (bindings.flatMap Memory.bindingEntries)
  rw [extend_eq_bind]
  cases hframe : Store.ofList (bindings.flatMap Memory.bindingEntries) s with
  | error e t =>
    rw [hframe] at hlist
    rwa [bind_of_error hframe]
  | ok frame t =>
    rw [hframe] at hlist
    rw [bind_of_ok hframe, bind_pure_comp, stateOf_map]
    have hext := extends_of_grows ((keeps_ofList _).of_ok hframe)
    exact hlist.push (henv.mono hext) _

/-- A closure is made by storing a list. -/
theorem build (h : Reached reserves chunkSize limit s) (c : Closure) :
    Reached reserves chunkSize limit (stateOf (c.build s)) := by
  rw [Closure.build, stateOf_map]
  exact h.ofList _

section Scanning

variable {m : Memory} (h : Reached reserves chunkSize limit m.store)
include h

/-- The tokens of a text are pushed one after the other in front of those that were read before. -/
theorem addAll {stream : TokenStream} (hstream : m.store.Issued stream.reversed) (tokens : Tokens) :
    Reached reserves chunkSize limit (stateOf (tokens.foldlM TokenStream.add stream m)).store := by
  induction tokens generalizing m stream with
  | nil => exact h
  | cons token tokens ih =>
    obtain ⟨value, m', hvalue, hstore⟩ := Memory.exists_toValue token m
    have hadd : stream.add token m =
        (Memory.ofStoreM (Store.push stream.reversed value) >>= fun reversed =>
          pure ⟨reversed, stream.length + 1⟩) m' := by
      rw [TokenStream.add, bind_of_ok hvalue]
    rw [List.foldlM_cons]
    have hpush := h.push hstream value
    rw [← hstore] at hpush
    cases hrun : Store.push stream.reversed value m'.store with
    | error e s =>
      rw [hrun] at hpush
      rw [bind_of_error (hadd.trans (bind_of_error (Memory.ofStoreM_error hrun)))]
      exact hpush
    | ok reversed s =>
      rw [hrun] at hpush
      have hok : stream.add token m =
          .ok ⟨reversed, stream.length + 1⟩ { m' with store := s } := by
        rw [hadd, bind_of_ok (Memory.ofStoreM_ok hrun)]
        rfl
      rw [bind_of_ok hok]
      exact ih (m := { m' with store := s }) hpush
        (issued_of_push (hstore ▸ h.layout) hrun)

/-- A text is scanned by pushing its tokens. -/
theorem scan (lx : Lexicon) (text : String) :
    Reached reserves chunkSize limit (stateOf (BraceLang.scan lx text m)).store := by
  obtain ⟨tokens, quote?, hlex⟩ : ∃ tokens quote?, lx.lex text.toList = (tokens, quote?) :=
    ⟨_, _, rfl⟩
  have hstart : m.store.Issued ({} : TokenStream).reversed := trivial
  have hadd := h.addAll hstart tokens
  simp only [BraceLang.scan, Lexer.ofString, hlex]
  cases hrun : tokens.foldlM TokenStream.add {} m with
  | error e m' =>
    rw [hrun] at hadd
    rw [bind_of_error hrun]
    exact hadd
  | ok stream m' =>
    rw [hrun] at hadd
    rw [bind_of_ok hrun]
    cases quote? with
    | none => exact hadd
    | some quote => exact hadd

end Scanning

end Store.Reached

/-- An operation on the store takes a number of cells, also where its failures are those of an
evaluation. -/
def Store.Takes {α : Type} (limit cells : Nat) (s : Store) (action : StoreM α) : Prop :=
  TakesExactly id (.exhausted limit) limit cells s (action s) ∧
    ∀ texts : TextTable, TakesExactly Memory.store (.allocationFailure (.exhausted limit)) limit
      cells s (Memory.ofStoreM action ⟨s, texts⟩)

theorem EvalError.eq_of_ofStore_eq {cause : StoreError} {limit : Nat}
    (h : ofStore cause = .allocationFailure (.exhausted limit)) : cause = .exhausted limit := by
  unfold ofStore at h
  split at h
  · cases h
    rfl
  · cases h

theorem Memory.Writes.takes {α : Type} {limit cells : Nat} {s : Store} {action : StoreM α}
    {Q : Memory → α → Prop} (h : Memory.Writes ⟨s, {}⟩ cells Q (ofStoreM action ⟨s, {}⟩))
    (hs : Store.Limited limit s) : s.Takes limit cells action := by
  have htakes := h.takesExactly hs
  cases hrun : action s with
  | ok a t =>
    rw [Memory.ofStoreM_ok (m := ⟨s, {}⟩) hrun] at htakes
    have hroom := htakes.succeeds_iff.mp ⟨_, _, rfl⟩
    have hused := htakes.adds _ _ rfl
    refine ⟨?_, fun texts => ?_⟩
    · rw [hrun]
      exact .of_ok hroom hused htakes.keeps
    · rw [Memory.ofStoreM_ok (m := ⟨s, texts⟩) hrun]
      exact .of_ok hroom hused htakes.keeps
  | error e t =>
    rw [Memory.ofStoreM_error (m := ⟨s, {}⟩) hrun] at htakes
    have hroom : ¬ s.used + cells ≤ limit := by
      intro hle
      obtain ⟨_, _, ⟨⟩⟩ := htakes.succeeds_iff.mpr hle
    obtain ⟨hcause, hused, hchunks⟩ := htakes.fails _ _ rfl
    obtain rfl := EvalError.eq_of_ofStore_eq hcause
    refine ⟨?_, fun texts => ?_⟩
    · rw [hrun]
      exact .of_error hroom hused hchunks htakes.keeps
    · rw [Memory.ofStoreM_error (m := ⟨s, texts⟩) hrun]
      exact .of_error hroom hused hchunks htakes.keeps

/-- Whatever was done with the store before, lists, environments, closures and scanned texts take
the cells that they are made of, up to the limit. The stores that extending an environment, making a
closure and scanning a text lead to are reached by operations on lists as well, so these may be
among what was done. -/
theorem Store.limit_exact {reserves : Nat → Bool} {chunkSize limit : Nat}
    (hr : reserves (max chunkSize 1) = true) (hindex : limit ≤ indexCount) (ops : List StoreOp)
    (h : (FlatStore.new chunkSize (some limit) reserves).Accepts ops) :
    let s := (replay StoreOp.onStore ops (new chunkSize (some limit) reserves)).2
    s.used ≤ limit ∧
    (∀ values : List Value, s.Takes limit values.length (ofList values)) ∧
    (∀ (l : ListRef) (length : Nat), s.length l = .ok length →
      s.Takes limit length (reverse l)) ∧
    (∀ (env : Environment) (bindings : List (TextRef × Value)),
      s.Takes limit (2 * bindings.length + 1) (env.extend bindings)) ∧
    (∀ c : Closure, s.Takes limit 3 c.build) ∧
    (∀ (lx : Lexicon) (text : String) (tokens : List Lexeme) (texts : TextTable),
      lx.lex text.toList = (tokens, none) → texts.Distinct →
      TakesExactly Memory.store (.allocationFailure (.exhausted limit)) limit tokens.length s
        (scan lx text ⟨s, texts⟩)) ∧
    (∀ (env : Environment) (bindings : List (TextRef × Value)), s.Issued env.frames →
      Reached reserves chunkSize limit (stateOf (env.extend bindings s))) ∧
    (∀ c : Closure, Reached reserves chunkSize limit (stateOf (c.build s))) ∧
    ∀ (lx : Lexicon) (text : String) (texts : TextTable),
      Reached reserves chunkSize limit (stateOf (scan lx text ⟨s, texts⟩)).store := by
  intro s
  have hs : Limited limit s := limited_replay hr hindex h
  have hreached : Reached reserves chunkSize limit s := ⟨ops, h, rfl⟩
  have hlayout : (⟨s, {}⟩ : Memory).store.Layout := hs.layout
  have hdistinct : (⟨s, {}⟩ : Memory).texts.Distinct := .empty 0
  refine ⟨hs.used_le, fun values => ?_, fun l length hl => ?_, fun env bindings => ?_, fun c => ?_,
    fun lx text tokens texts hlex htexts => ?_,
    fun env bindings henv => hreached.extend henv bindings, hreached.build,
    fun lx text texts => hreached.scan (m := ⟨s, texts⟩) lx text⟩
  · exact (Memory.writes_ofList hlayout hdistinct values).takes hs
  · obtain ⟨values, hvalues, rfl⟩ := exists_of_length hl
    exact (Memory.writes_reverse hlayout hdistinct (hs.chain l values hvalues)).takes hs
  · exact (Memory.writes_extend hlayout hdistinct env bindings).takes hs
  · exact (Memory.writes_build hlayout hdistinct c).takes hs
  · exact (Memory.writes_scan (m := ⟨s, texts⟩) hs.layout htexts hlex).takesExactly hs

/-- Two of five cells are in use, behind a reset. Three more can be had and four cannot. -/
theorem Store.limit_exact_five :
    let ops : List StoreOp := [.ofList [.absent, .absent, .absent], .reset,
      .ofList [.absent, .absent], .newSlot ⟨0, 0⟩ (.chain ⟨0, 1⟩)]
    let s := (replay StoreOp.onStore ops (new 2 (some 5))).2
    s.used = 2 ∧ s.Takes 5 4 (ofList [.absent, .absent, .absent, .absent]) ∧
      s.Takes 5 2 (reverse (.chain ⟨1, 1⟩)) ∧
      s.Takes 5 (2 * 1 + 1) (({} : Environment).extend [(⟨0, 0⟩, .absent)]) ∧
      s.Takes 5 3 (Closure.build ⟨.empty, .chain ⟨1, 1⟩, .empty⟩) ∧
      TakesExactly Memory.store (.allocationFailure (.exhausted 5)) 5 4 s
        (scan ({} : Config).lexicon "f(x)" ⟨s, {}⟩) := by
  intro ops s
  have haccepts : (FlatStore.new 2 (some 5)).Accepts ops :=
    ⟨trivial, trivial, trivial, Or.inr (by decide +kernel), trivial⟩
  have hexact := limit_exact (by decide : fitsBlock (max 2 1) = true) (by decide) ops haccepts
  have hlength : s.length (.chain ⟨1, 1⟩) = .ok 2 := by decide +kernel
  have hlex : ({} : Config).lexicon.lex "f(x)".toList =
      ([.atom ['f'], .delimiter '(', .atom ['x'], .delimiter ')'], none) := by
    rw [Lexicon.lex_of_read (rfl : Lexicon.read _ _ = .lexeme (.atom ['f']) _),
      Lexicon.lex_of_read (rfl : Lexicon.read _ _ = .lexeme (.delimiter '(') _),
      Lexicon.lex_of_read (rfl : Lexicon.read _ _ = .lexeme (.atom ['x']) _),
      Lexicon.lex_of_read (rfl : Lexicon.read _ _ = .lexeme (.delimiter ')') _),
      Lexicon.lex_of_finished rfl]
  obtain ⟨-, hlists, hreverse, hextend, hbuild, hscan, -⟩ := hexact
  refine ⟨by decide +kernel, hlists [.absent, .absent, .absent, .absent], hreverse _ 2 hlength,
    hextend {} [(⟨0, 0⟩, .absent)], hbuild _, hscan _ _ _ {} hlex (.empty 0)⟩

end BraceLang
