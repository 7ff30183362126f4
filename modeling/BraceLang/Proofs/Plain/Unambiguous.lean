import BraceLang.Proofs.Decimal.Printing
import BraceLang.Proofs.Plain.Datum

/-!
# Data are written unambiguously

The text of data can be read in one way only, although nothing is escaped in it: a string that does
not have quotes of both kinds stands between quotes of the kind that it does not have, the text of
a number has none of the characters that may follow it, and each kind of data begins in a way of its
own. So brackets, commas and quotes inside a string are never taken for the structure around it.

* `Quotable`: strings that do not have quotes of both kinds.
* `Datum.IsData`: numbers, lists, and strings with a property.
* `Datum.IsData.decodes`: what is written behind each other is read in one way only.
* `Datum.brief_injective`: data with the same text are the same.
-/

namespace BraceLang

/-- The text does not have quotes of both kinds. -/
def Quotable (text : List Char) : Prop := '\'' ∉ text ∨ '"' ∉ text

/-- A string stands between quotes that it does not have itself. -/
theorem Quotable.quoted_eq {text : List Char} (h : Quotable text) :
    ∃ quote, (quote = '\'' ∨ quote = '"') ∧ quote ∉ text ∧
      Memory.quoted text = quote :: (text ++ [quote]) := by
  by_cases hdouble : '"' ∈ text
  · have hsingle : '\'' ∉ text := h.resolve_right (absurd hdouble)
    exact ⟨'\'', .inl rfl, hsingle, by simp [Memory.quoted, hdouble]⟩
  · exact ⟨'"', .inr rfl, hdouble, by simp [Memory.quoted, hdouble]⟩

namespace Datum

/-- Data that are made of numbers, of lists and of strings with a property. -/
inductive IsData (strings : List Char → Prop) : Datum Tokens → Prop
  | number {x : Float} : IsData strings (.number x)
  | string {text : List Char} : strings text → IsData strings (.string text)
  | list {items : List (Datum Tokens)} : (∀ item ∈ items, IsData strings item) →
    IsData strings (.list items)

mutual

/-- Whether data are made of such numbers, strings and lists. -/
def decideData {strings : List Char → Prop} [DecidablePred strings] :
    (d : Datum Tokens) → Decidable (d.IsData strings)
  | .number _ => .isTrue .number
  | .string text => decidable_of_iff (strings text) ⟨.string, fun | .string h => h⟩
  | .list items =>
    have : Decidable (∀ item ∈ items, item.IsData strings) := decideItems items
    decidable_of_iff (∀ item ∈ items, item.IsData strings) ⟨.list, fun | .list h => h⟩
  | .closure _ _ _ => .isFalse nofun

def decideItems {strings : List Char → Prop} [DecidablePred strings] :
    (items : List (Datum Tokens)) → Decidable (∀ item ∈ items, item.IsData strings)
  | [] => .isTrue nofun
  | item :: items =>
    have : Decidable (item.IsData strings) := decideData item
    have : Decidable (∀ other ∈ items, other.IsData strings) := decideItems items
    decidable_of_iff (item.IsData strings ∧ ∀ other ∈ items, other.IsData strings)
      List.forall_mem_cons.symm

end

instance {strings : List Char → Prop} [DecidablePred strings] :
    DecidablePred (IsData strings) := decideData

/-- What stands behind an item of a list. -/
def Stops (rest : List Char) : Prop := ∀ c ∈ rest.head?, c = ',' ∨ c = ']'

/-- A text that is made of some characters only ends in front of the first other one. -/
theorem end_unique {inside : Char → Bool} {text text' rest rest' : List Char}
    (h : ∀ c ∈ text, inside c = true) (h' : ∀ c ∈ text', inside c = true)
    (hrest : ∀ c ∈ rest.head?, inside c = false) (hrest' : ∀ c ∈ rest'.head?, inside c = false)
    (heq : text ++ rest = text' ++ rest') : text = text' ∧ rest = rest' := by
  induction text generalizing text' with
  | nil =>
    cases text' with
    | nil => exact ⟨rfl, heq⟩
    | cons c' text' =>
      rw [List.nil_append] at heq
      subst heq
      exact absurd (h' c' List.mem_cons_self) (Bool.eq_false_iff.mp (hrest c' rfl))
  | cons c text ih =>
    cases text' with
    | nil =>
      rw [List.nil_append] at heq
      subst heq
      exact absurd (h c List.mem_cons_self) (Bool.eq_false_iff.mp (hrest' c rfl))
    | cons c' text' =>
      obtain ⟨rfl, hbehind⟩ := List.cons_eq_cons.mp heq
      obtain ⟨rfl, hend⟩ := ih (fun c hc => h c (List.mem_cons_of_mem _ hc))
        (fun c hc => h' c (List.mem_cons_of_mem _ hc)) hbehind
      exact ⟨rfl, hend⟩

/-! ## Numbers and strings -/

theorem displayNumber_decodes {x y : Float} {rest rest' : List Char} (h : Stops rest)
    (h' : Stops rest')
    (heq : (displayNumber x).toList ++ rest = (displayNumber y).toList ++ rest') :
    x = y ∧ rest = rest' := by
  have hchars : ∀ x : Float, ∀ c ∈ (displayNumber x).toList,
      Decimal.numberChars.contains c = true := by
    intro x c hc
    simpa using (displayNumber_chars x).2 c hc
  have hstops : ∀ {rest : List Char}, Stops rest →
      ∀ c ∈ rest.head?, Decimal.numberChars.contains c = false := by
    intro rest h c hc
    rcases h c hc with rfl | rfl <;> decide
  obtain ⟨htext, hend⟩ := end_unique (hchars x) (hchars y) (hstops h) (hstops h') heq
  have hread := readNumber?_displayNumber x
  rw [htext, readNumber?_displayNumber y] at hread
  exact ⟨(Option.some.inj hread).symm, hend⟩

theorem string_decodes {text text' : List Char} {rest rest' : List Char} (h : Quotable text)
    (h' : Quotable text') (heq : Memory.quoted text ++ rest = Memory.quoted text' ++ rest') :
    text = text' ∧ rest = rest' := by
  obtain ⟨quote, -, hinside, hquoted⟩ := h.quoted_eq
  obtain ⟨quote', -, hinside', hquoted'⟩ := h'.quoted_eq
  rw [hquoted, hquoted', List.cons_append, List.cons_append, List.append_assoc,
    List.append_assoc, List.cons_eq_cons] at heq
  obtain ⟨rfl, hbehind⟩ := heq
  have hne : ∀ {contents : List Char}, quote ∉ contents →
      ∀ c ∈ contents, (c != quote) = true := by
    intro contents hcontents c hc
    simp only [bne_iff_ne]
    rintro rfl
    exact hcontents hc
  obtain ⟨rfl, hend⟩ := end_unique (hne hinside) (hne hinside') (by simp) (by simp) hbehind
  exact ⟨rfl, List.append_cancel_left hend⟩

/-! ## First characters -/

/-- The kind of data that begins with a character. -/
def typeOfHead (c : Char) : String :=
  if c = '[' then "list" else if c = '\'' ∨ c = '"' then "string" else "number"

theorem typeOfHead_of_mem {c : Char} (h : c ∈ Decimal.numberChars) :
    typeOfHead c = "number" ∧ c ≠ ']' := by
  have hall : Decimal.numberChars.all (fun c => typeOfHead c == "number" && c != ']') = true := by
    decide
  simpa using List.all_eq_true.mp hall c h

/-- Data begin with a character that gives their kind. -/
theorem IsData.brief_eq_cons {d : Datum Tokens} (h : d.IsData Quotable) :
    ∃ c rest, d.brief = c :: rest ∧ typeOfHead c = d.typeName ∧ c ≠ ']' := by
  cases h with
  | @number x =>
    obtain ⟨hne, hchars⟩ := displayNumber_chars x
    obtain ⟨c, rest, hcons⟩ := List.exists_cons_of_ne_nil hne
    have hc := typeOfHead_of_mem (hchars c (by rw [hcons]; exact List.mem_cons_self))
    exact ⟨c, rest, by rw [brief, hcons], hc⟩
  | string htext =>
    obtain ⟨quote, hquote, -, hquoted⟩ := htext.quoted_eq
    refine ⟨quote, _, by rw [brief, hquoted], ?_⟩
    rcases hquote with rfl | rfl <;> exact ⟨rfl, by decide⟩
  | list => exact ⟨'[', _, by rw [brief]; rfl, rfl, by decide⟩

theorem typeName_eq_of_brief {d e : Datum Tokens} (hd : d.IsData Quotable) (he : e.IsData Quotable)
    {rest rest' : List Char} (heq : d.brief ++ rest = e.brief ++ rest') :
    d.typeName = e.typeName := by
  obtain ⟨c, tail, hc, htype, -⟩ := hd.brief_eq_cons
  obtain ⟨c', tail', hc', htype', -⟩ := he.brief_eq_cons
  rw [hc, hc', List.cons_append, List.cons_append] at heq
  rw [← htype, ← htype', (List.cons_eq_cons.mp heq).1]

/-! ## Lists -/

/-- What stands behind the first item of a list, up to the end of a text. -/
def further (items : List (Datum Tokens)) (rest : List Char) : List Char :=
  items.flatMap (fun item => ',' :: ' ' :: item.brief) ++ ']' :: rest

theorem further_cons (item : Datum Tokens) (items : List (Datum Tokens)) (rest : List Char) :
    further (item :: items) rest = ',' :: ' ' :: (item.brief ++ further items rest) := by
  simp [further]

theorem stops_further (items : List (Datum Tokens)) (rest : List Char) :
    Stops (further items rest) := by
  cases items with
  | nil =>
    rintro c ⟨rfl⟩
    exact .inr rfl
  | cons item items =>
    rintro c ⟨rfl⟩
    exact .inl rfl

theorem commas_cons (item : Datum Tokens) (items : List (Datum Tokens)) (rest : List Char) :
    Memory.commas ((item :: items).map brief) ++ ']' :: rest =
      item.brief ++ further items rest := by
  induction items generalizing item with
  | nil => simp [Memory.commas, further]
  | cons next items ih =>
    have hstep : Memory.commas ((item :: next :: items).map brief) =
        item.brief ++ ([',', ' '] ++ Memory.commas ((next :: items).map brief)) := by
      simp [Memory.commas, List.intercalate_cons_cons]
    rw [hstep, List.append_assoc, List.append_assoc, ih]
    simp [further]

theorem brief_list_append (items : List (Datum Tokens)) (rest : List Char) :
    (Datum.list items).brief ++ rest =
      '[' :: (Memory.commas (items.map brief) ++ ']' :: rest) := by
  simp [brief, briefs_eq_map, Memory.bracketed]

/-- Data in front of a comma or a closing bracket can be read in one way only. -/
def Decodes (d : Datum Tokens) : Prop :=
  ∀ ⦃e : Datum Tokens⦄ ⦃rest rest' : List Char⦄, e.IsData Quotable → Stops rest → Stops rest' →
    d.brief ++ rest = e.brief ++ rest' → d = e ∧ rest = rest'

theorem further_decodes {items items' : List (Datum Tokens)} {rest rest' : List Char}
    (h : ∀ item ∈ items, Decodes item) (h' : ∀ item ∈ items', item.IsData Quotable)
    (heq : further items rest = further items' rest') : items = items' ∧ rest = rest' := by
  induction items generalizing items' with
  | nil =>
    cases items' with
    | nil => exact ⟨rfl, (List.cons_eq_cons.mp heq).2⟩
    | cons item' items' => cases (List.cons_eq_cons.mp heq).1
  | cons item items ih =>
    cases items' with
    | nil => cases (List.cons_eq_cons.mp heq).1
    | cons item' items' =>
      rw [further_cons, further_cons] at heq
      have hitems : item.brief ++ further items rest = item'.brief ++ further items' rest' :=
        (List.cons_eq_cons.mp (List.cons_eq_cons.mp heq).2).2
      obtain ⟨rfl, hfurther⟩ := h item List.mem_cons_self (h' item' List.mem_cons_self)
        (stops_further items rest) (stops_further items' rest') hitems
      obtain ⟨rfl, hrest⟩ := ih (fun item hmem => h item (List.mem_cons_of_mem _ hmem))
        (fun item hmem => h' item (List.mem_cons_of_mem _ hmem)) hfurther
      exact ⟨rfl, hrest⟩

theorem list_decodes {items items' : List (Datum Tokens)} {rest rest' : List Char}
    (h : ∀ item ∈ items, item.IsData Quotable) (hitems : ∀ item ∈ items, Decodes item)
    (h' : ∀ item ∈ items', item.IsData Quotable)
    (heq : Memory.commas (items.map brief) ++ ']' :: rest =
      Memory.commas (items'.map brief) ++ ']' :: rest') : items = items' ∧ rest = rest' := by
  -- an item does not begin with the bracket that closes a list
  have hempty : ∀ {item : Datum Tokens} {tail behind : List Char}, item.IsData Quotable →
      item.brief ++ tail ≠ ']' :: behind := by
    intro item tail behind hitem heq
    obtain ⟨c, text, hc, -, hne⟩ := hitem.brief_eq_cons
    rw [hc] at heq
    exact hne (List.cons_eq_cons.mp heq).1
  cases items with
  | nil =>
    cases items' with
    | nil => exact ⟨rfl, (List.cons_eq_cons.mp heq).2⟩
    | cons item' items' =>
      rw [commas_cons] at heq
      exact absurd heq.symm (hempty (h' item' List.mem_cons_self))
  | cons item items =>
    cases items' with
    | nil =>
      rw [commas_cons] at heq
      exact absurd heq (hempty (h item List.mem_cons_self))
    | cons item' items' =>
      rw [commas_cons, commas_cons] at heq
      refine further_decodes hitems h' ?_
      rw [further_cons, further_cons, heq]

/-- What is written in front of a comma or a closing bracket tells which data it is. -/
theorem IsData.decodes {d : Datum Tokens} (h : d.IsData Quotable) : d.Decodes := by
  induction h with
  | @number x =>
    intro e rest rest' he hrest hrest' heq
    have htype := typeName_eq_of_brief .number he heq
    cases he with
    | number =>
      rw [brief, brief] at heq
      obtain ⟨rfl, hend⟩ := displayNumber_decodes hrest hrest' heq
      exact ⟨rfl, hend⟩
    | string => exact absurd htype (by simp [typeName])
    | list => exact absurd htype (by simp [typeName])
  | @string text htext =>
    intro e rest rest' he _ _ heq
    have htype := typeName_eq_of_brief (.string htext) he heq
    cases he with
    | number => exact absurd htype (by simp [typeName])
    | string htext' =>
      rw [brief, brief] at heq
      obtain ⟨rfl, hend⟩ := string_decodes htext htext' heq
      exact ⟨rfl, hend⟩
    | list => exact absurd htype (by simp [typeName])
  | @list items hitems ih =>
    intro e rest rest' he _ _ heq
    have htype := typeName_eq_of_brief (.list hitems) he heq
    cases he with
    | number => exact absurd htype (by simp [typeName])
    | string => exact absurd htype (by simp [typeName])
    | list hitems' =>
      rw [brief_list_append, brief_list_append, List.cons_eq_cons] at heq
      obtain ⟨rfl, hend⟩ := list_decodes hitems ih hitems' heq.2
      exact ⟨rfl, hend⟩

theorem brief_injective {d e : Datum Tokens} (hd : d.IsData Quotable) (he : e.IsData Quotable)
    (h : d.brief = e.brief) : d = e := by
  have hstops : Stops [] := by simp [Stops]
  exact (hd.decodes he hstops hstops (congrArg (· ++ []) h)).1

end Datum

end BraceLang
