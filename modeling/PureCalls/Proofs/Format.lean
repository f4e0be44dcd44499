import Mathlib.Data.List.Induction
import Mathlib.Data.List.Nodup
import PureCalls.Proofs.Magnitude
import PureCalls.Proofs.Uniqueness

/-! Which JSON values hold options, and that a text is read as options exactly if it spells such a value. -/
namespace PureCalls

namespace Options
open Json

private theorem texts?_eq_some {items : List Value} {segments : List String} :
    texts? items = some segments ↔ items = segments.map .text := by
  fun_induction texts? items generalizing segments with
  | case1 => simp [eq_comm]
  | case2 s rest ih =>
    rw [Option.map_eq_some_iff]
    constructor
    · rintro ⟨tail, htail, rfl⟩
      rw [ih.mp htail, List.map_cons]
    · intro h
      obtain ⟨_, tail, rfl, ⟨⟩, htail⟩ := List.map_eq_cons_iff.mp h.symm
      exact ⟨tail, ih.mpr htail.symm, rfl⟩
  | case3 v rest hv =>
    refine ⟨nofun, fun h => ?_⟩
    obtain ⟨s, _, _, heq, -⟩ := List.map_eq_cons_iff.mp h.symm
    exact absurd heq.symm (hv s)

end Options

/-- The entry that a value in the list of a module stands for. -/
inductive Json.Value.IsEntry : Json.Value → Entry → Prop
  | plain {name} : IsEntry (.text name) (.plain name)
  | chain {segments : List String} : IsEntry (.list (segments.map .text)) (.chain segments)
  | unrecognized {v} (htext : ∀ name, v ≠ .text name)
      (hchain : ∀ segments : List String, v ≠ .list (segments.map .text)) : IsEntry v .unrecognized

private theorem Entry.ofValue_isEntry (v : Json.Value) : v.IsEntry (Entry.ofValue v) := by
  cases v with
  | text name => exact .plain
  | list items =>
    cases hitems : Options.texts? items with
    | none =>
      have hvalue : Entry.ofValue (.list items) = .unrecognized := by rw [Entry.ofValue, hitems]
      rw [hvalue]
      refine .unrecognized nofun fun segments heq => ?_
      rw [Options.texts?_eq_some.mpr (Json.Value.list.inj heq)] at hitems
      cases hitems
    | some segments =>
      have hvalue : Entry.ofValue (.list items) = .chain segments := by rw [Entry.ofValue, hitems]
      rw [hvalue, Options.texts?_eq_some.mp hitems]
      exact .chain
  | _ => exact .unrecognized nofun nofun

namespace Options
open Json

variable {α : Type}

/-- The last value that fields give to a key. -/
def LastValue (fields : List (String × α)) (key : String) (value : α) : Prop :=
  ∃ before after, fields = before ++ (key, value) :: after ∧ ∀ field ∈ after, field.1 ≠ key

private theorem keys_assign (fields : List (String × α)) (key : String) (value : α) : (assign fields key value).map Prod.fst =
    if key ∈ fields.map Prod.fst then fields.map Prod.fst else fields.map Prod.fst ++ [key] := by
  induction fields with
  | nil => simp [assign]
  | cons field fields ih =>
    rw [assign]
    split
    next hkey => simp [hkey]
    next hkey =>
      simp only [List.map_cons, ih, List.mem_cons, Ne.symm hkey, false_or]
      split <;> rfl

private theorem nodup_keys_assign {fields : List (String × α)} (h : (fields.map Prod.fst).Nodup) (key : String) (value : α) :
    ((assign fields key value).map Prod.fst).Nodup := by
  rw [keys_assign]
  split
  next => exact h
  next hkey => exact List.concat_eq_append ▸ List.Nodup.concat hkey h

/-- A key that is given a value has that one alone, and the others keep theirs. -/
theorem mem_assign {fields : List (String × α)} (h : (fields.map Prod.fst).Nodup) {key : String} {value : α}
    {field : String × α} (hfield : field ∈ assign fields key value) :
    field = (key, value) ∨ field ∈ fields ∧ field.1 ≠ key := by
  induction fields with
  | nil => exact .inl (List.mem_singleton.mp hfield)
  | cons first fields ih =>
    obtain ⟨hfirst, h⟩ := List.nodup_cons.mp h
    rw [assign] at hfield
    split at hfield
    next hkey =>
      obtain rfl | hmem := List.mem_cons.mp hfield
      · exact .inl (by rw [hkey])
      · refine .inr ⟨List.mem_cons_of_mem _ hmem, fun heq => ?_⟩
        exact hfirst (hkey.trans heq.symm ▸ List.mem_map_of_mem hmem)
    next hkey =>
      obtain rfl | hmem := List.mem_cons.mp hfield
      · exact .inr ⟨List.mem_cons_self, hkey⟩
      · obtain heq | ⟨hmem, hne⟩ := ih h hmem
        · exact .inl heq
        · exact .inr ⟨List.mem_cons_of_mem _ hmem, hne⟩

private theorem lastValues_concat (fields : List (String × α)) (field : String × α) :
    lastValues (fields ++ [field]) = assign (lastValues fields) field.1 field.2 :=
  List.foldl_concat ..

private theorem keys_lastValues (fields : List (String × α)) :
    (lastValues fields).map Prod.fst = (fields.map Prod.fst).eraseDups := by
  induction fields using List.reverseRecOn with
  | nil => rfl
  | append_singleton fields field ih =>
    rw [lastValues_concat, keys_assign, ih, List.map_append, List.eraseDups_append]
    by_cases hkey : field.1 ∈ fields.map Prod.fst <;> simp [List.removeAll, List.eraseDups_cons, hkey]

private theorem nodup_keys_lastValues (fields : List (String × α)) : ((lastValues fields).map Prod.fst).Nodup := by
  induction fields using List.reverseRecOn with
  | nil => exact List.nodup_nil
  | append_singleton fields field ih =>
    rw [lastValues_concat]
    exact nodup_keys_assign ih _ _

private theorem lastValue_of_mem {fields : List (String × α)} {field : String × α} (h : field ∈ lastValues fields) :
    LastValue fields field.1 field.2 := by
  induction fields using List.reverseRecOn with
  | nil => cases h
  | append_singleton fields last ih =>
    rw [lastValues_concat] at h
    obtain rfl | ⟨hmem, hne⟩ := mem_assign (nodup_keys_lastValues fields) h
    · exact ⟨fields, [], rfl, List.forall_mem_nil _⟩
    · obtain ⟨before, after, hfields, hafter⟩ := ih hmem
      refine ⟨before, after ++ [last], by rw [hfields, List.append_assoc, List.cons_append], ?_⟩
      exact List.forall_mem_append.mpr ⟨hafter, List.forall_mem_singleton.mpr hne.symm⟩

/-- The record that gives each module a list. -/
def record (modules : List (String × List Value)) : Value :=
  .record (modules.map fun m => (m.1, .list m.2))

/-- A value that holds options, with what it says of each module: a record with no key but one, which may be missing,
or a list of at most one value. -/
inductive Holds : Value → List (String × List Value) → Prop
  | emptyRecord : Holds (.record []) []
  | record {modules} : Holds (.record [("pureCalls", Options.record modules)]) modules
  | emptyList : Holds (.list []) []
  | list {modules} : Holds (.list [Options.record modules]) modules

/-- Options list each module that is given a list, in the order in which the modules first appear, and each with the
entries for the list that it is given last. -/
structure Collects (options : Options) (modules : List (String × List Value)) : Prop where
  keys : options.modules.map Prod.fst = (modules.map Prod.fst).eraseDups
  entries : ∀ m ∈ options.modules, ∃ items, LastValue modules m.1 items ∧ List.Forall₂ Value.IsEntry items m.2

/-- The options in what is said of each module. -/
def ofModules (modules : List (String × List Value)) : Options :=
  ⟨lastValues (modules.map fun m => (m.1, m.2.map Entry.ofValue))⟩

private theorem ofModules_collects (modules : List (String × List Value)) :
    (ofModules modules).Collects modules := by
  refine ⟨?_, fun m hm => ?_⟩
  · rw [ofModules, keys_lastValues, List.map_map]
    rfl
  · obtain ⟨before, after, hmap, hafter⟩ := lastValue_of_mem hm
    obtain ⟨before', tail, rfl, -, htail⟩ := List.map_eq_append_iff.mp hmap
    obtain ⟨m', after', rfl, heq, rfl⟩ := List.map_eq_cons_iff.mp htail
    obtain ⟨hkey, hentries⟩ := Prod.mk.inj heq
    refine ⟨m'.2, ⟨before', after', by rw [← hkey], fun field hfield => ?_⟩, ?_⟩
    · exact hafter _ (List.mem_map_of_mem hfield)
    · rw [← hentries, List.forall₂_map_right_iff, List.forall₂_same]
      exact fun v _ => Entry.ofValue_isEntry v

theorem reads_readEntry :
    Reads readEntry fun start e rest => ∃ v, SpelledWithin 124 start v rest ∧ Entry.ofValue v = e := by
  have hvalue := reads_readValue 124
  refine ⟨fun h => ?_, fun hblanks h hrest => ?_, fun ⟨_, h, _⟩ => hvalue.starts h, fun ⟨_, h, _⟩ => hvalue.length_le h⟩
  · obtain ⟨⟨v, rest⟩, hread, hlast⟩ := bind_eq_ok.mp h
    cases hlast
    obtain ⟨start, hblanks, hv⟩ := hvalue.sound hread
    exact ⟨start, hblanks, v, hv, rfl⟩
  · obtain ⟨v, hv, rfl⟩ := h
    exact bind_eq_ok.mpr ⟨_, hvalue.complete hblanks hv hrest, rfl⟩

theorem forall₂_map_eq_iff {β : Type} {f : α → β} {xs : List α} {ys : List β} :
    List.Forall₂ (fun x y => f x = y) xs ys ↔ xs.map f = ys := by
  rw [← List.forall₂_map_left_iff, List.forall₂_eq_eq_eq]

private theorem readEntries_eq_ok {cs rest : List Char} {entries : List Entry} : readEntries cs = .ok (entries, rest) ↔
    ∃ start items, Blanks cs start ∧ SpelledWithin 125 start (.list items) rest ∧
      items.map Entry.ofValue = entries := by
  constructor
  · intro h
    have hblanks := blanks_skipBlanks cs
    unfold readEntries at h
    split at h
    next heq =>
      obtain ⟨items, hitems, hentries⟩ := series_rel_iff.mp (readItems_sound reads_readEntry h)
      exact ⟨_, items, heq ▸ hblanks, spelledWithin_list.mpr hitems, forall₂_map_eq_iff.mp hentries⟩
    · cases h
  · rintro ⟨start, items, hblanks, hlist, hentries⟩
    cases hlist.1 with
    | list =>
      have hitems := series_rel_iff.mpr ⟨items, spelledWithin_list.mp hlist, forall₂_map_eq_iff.mpr hentries⟩
      rw [readEntries, hblanks.skipBlanks_cons (by decide)]
      exact readItems_complete reads_readEntry hitems

/-- A value is a list that holds these entries. -/
def EntriesOf (v : Value) (entries : List Entry) : Prop :=
  ∃ items, v = .list items ∧ items.map Entry.ofValue = entries

theorem reads_readEntries :
    Reads readEntries fun start entries rest => ∃ v, SpelledWithin 125 start v rest ∧ EntriesOf v entries := by
  have hvalue := reads_readValue 125
  refine ⟨fun h => ?_, fun hblanks h _ => ?_, fun ⟨_, h, _⟩ => hvalue.starts h, fun ⟨_, h, _⟩ => hvalue.length_le h⟩
  · obtain ⟨start, items, hblanks, hlist, hentries⟩ := readEntries_eq_ok.mp h
    exact ⟨start, hblanks, .list items, hlist, items, rfl, hentries⟩
  · obtain ⟨_, hlist, items, rfl, hentries⟩ := h
    exact readEntries_eq_ok.mpr ⟨_, items, hblanks, hlist, hentries⟩

/-- Fields whose values are all lists give each module a list. -/
theorem forall₂_lists_iff {fields : List (String × Value)} {entries : List (String × List Entry)} :
    List.Forall₂ (fun f m => f.1 = m.1 ∧ EntriesOf f.2 m.2) fields entries ↔
      ∃ modules : List (String × List Value), modules.map (fun m => (m.1, .list m.2)) = fields ∧
        modules.map (fun m => (m.1, m.2.map Entry.ofValue)) = entries := by
  constructor
  · intro h
    induction h with
    | nil => exact ⟨[], rfl, rfl⟩
    | @cons f m _ _ h _ ih =>
      obtain ⟨key, v⟩ := f
      obtain ⟨key', es⟩ := m
      obtain ⟨rfl, items, rfl, rfl⟩ := h
      obtain ⟨modules, rfl, rfl⟩ := ih
      exact ⟨(key, items) :: modules, rfl, rfl⟩
  · rintro ⟨modules, rfl, rfl⟩
    rw [List.forall₂_map_left_iff, List.forall₂_map_right_iff, List.forall₂_same]
    exact fun m _ => ⟨rfl, m.2, rfl, rfl⟩

private theorem readModules_eq_ok {cs rest : List Char} {o : Options} : readModules cs = .ok (o, rest) ↔
    ∃ start modules, Blanks cs start ∧ SpelledWithin 126 start (record modules) rest ∧ ofModules modules = o := by
  constructor
  · intro h
    have hblanks := blanks_skipBlanks cs
    unfold readModules at h
    split at h
    next heq =>
      obtain ⟨⟨entries, last⟩, hentries, hlast⟩ := bind_eq_ok.mp h
      cases hlast
      obtain ⟨fields, hfields, hall⟩ := fields_rel_iff.mp (readFields_sound reads_readEntries hentries)
      obtain ⟨modules, rfl, rfl⟩ := forall₂_lists_iff.mp hall
      exact ⟨_, modules, heq ▸ hblanks, spelledWithin_record.mpr hfields, rfl⟩
    · cases h
  · rintro ⟨start, modules, hblanks, hrecord, rfl⟩
    have hspelled := hrecord.1
    unfold record at hspelled hrecord
    cases hspelled with
    | record =>
      have hall := forall₂_lists_iff.mpr ⟨modules, rfl, rfl⟩
      have hfields := fields_rel_iff.mpr ⟨_, spelledWithin_record.mp hrecord, hall⟩
      rw [readModules, hblanks.skipBlanks_cons (by decide)]
      exact bind_eq_ok.mpr ⟨_, readFields_complete reads_readEntries hfields, rfl⟩

private theorem readEnd_eq_ok {cs rest : List Char} : readEnd cs = .ok ((), rest) ↔ Blanks cs ('}' :: rest) := by
  constructor
  · intro h
    have hblanks := blanks_skipBlanks cs
    unfold readEnd at h
    split at h
    · cases h
    next heq =>
      cases h
      exact heq ▸ hblanks
    next =>
      split at h
      · cases h
      · obtain ⟨_, _, hlast⟩ := bind_eq_ok.mp h
        cases hlast
      · cases h
    · cases h
  · intro h
    rw [readEnd, h.skipBlanks_cons (by decide)]
    rfl

private theorem readRecord_sound {cs rest : List Char} {o : Options} (h : readRecord cs = .ok (o, rest)) :
    ∃ v modules, SpelledWithin 127 ('{' :: cs) v rest ∧ Holds v modules ∧ ofModules modules = o := by
  have hblanks := blanks_skipBlanks cs
  unfold readRecord at h
  split at h
  · cases h
  next heq =>
    cases h
    exact ⟨.record [], [], spelledWithin_record.mpr (.nil (heq ▸ hblanks)), .emptyRecord, rfl⟩
  next heq =>
    obtain ⟨⟨name, after⟩, hname, h⟩ := bind_eq_ok.mp h
    dsimp only at h
    split at h
    · cases h
    next hkey =>
      obtain ⟨⟨_, mid⟩, hcolon, h⟩ := bind_eq_ok.mp h
      obtain ⟨⟨options, mid'⟩, hmodules, h⟩ := bind_eq_ok.mp h
      obtain ⟨⟨_, last⟩, hend, h⟩ := bind_eq_ok.mp h
      cases h
      obtain ⟨start, modules, hstart, hrecord, rfl⟩ := readModules_eq_ok.mp hmodules
      have hfield : Field (SpelledWithin 126) _ ("pureCalls", record modules) mid' :=
        .mk (Decidable.not_not.mp hkey ▸ readText_eq_ok.mp hname) (readColon_eq_ok.mp hcolon) hstart hrecord
      refine ⟨_, modules, spelledWithin_record.mpr ?_, .record, rfl⟩
      exact .cons (.first (heq ▸ hblanks)) hfield (.nil (readEnd_eq_ok.mp hend))
  · cases h

private theorem readRecord_complete {cs rest : List Char} {v : Value} {modules : List (String × List Value)}
    (h : SpelledWithin 127 ('{' :: cs) v rest) (hv : Holds v modules) :
    readRecord cs = .ok (ofModules modules, rest) := by
  cases hv with
  | emptyRecord =>
    cases spelledWithin_record.mp h with
    | nil hend =>
      rw [readRecord, hend.skipBlanks_cons (by decide)]
      rfl
  | record =>
    cases spelledWithin_record.mp h with
    | cons hlead hfield hend =>
      obtain ⟨hblanks⟩ | ⟨⟩ := hlead
      cases hend with
      | nil hend =>
        -- The key is spelled by any characters that stand for it, so the field is taken apart before its key is compared.
        generalize hf : ("pureCalls", record modules) = field at hfield
        obtain ⟨hname, hcolon, hstart, hrecord⟩ := hfield
        obtain ⟨hkey, rfl⟩ := Prod.mk.inj hf
        rw [readRecord, hblanks.skipBlanks_cons (by decide)]
        refine bind_eq_ok.mpr ⟨_, readText_eq_ok.mpr hname, ?_⟩
        have hkey : _ = key := String.ofList_injective (hkey.symm.trans String.ofList_toList.symm)
        refine (if_neg (not_not.mpr hkey)).trans ?_
        refine bind_eq_ok.mpr ⟨_, readColon_eq_ok.mpr hcolon, ?_⟩
        refine bind_eq_ok.mpr ⟨_, readModules_eq_ok.mpr ⟨_, modules, hstart, hrecord, rfl⟩, ?_⟩
        exact bind_eq_ok.mpr ⟨_, readEnd_eq_ok.mpr hend, rfl⟩
  | emptyList => cases h.1
  | list => cases h.1

private theorem readTuple_sound {cs rest : List Char} {o : Options} (h : readTuple cs = .ok (o, rest)) :
    ∃ v modules, SpelledWithin 127 ('[' :: cs) v rest ∧ Holds v modules ∧ ofModules modules = o := by
  have hblanks := blanks_skipBlanks cs
  unfold readTuple at h
  split at h
  · cases h
  next heq =>
    cases h
    exact ⟨.list [], [], spelledWithin_list.mpr (.nil (heq ▸ hblanks)), .emptyList, rfl⟩
  · obtain ⟨⟨options, mid⟩, hmodules, h⟩ := bind_eq_ok.mp h
    obtain ⟨start, modules, hstart, hrecord, rfl⟩ := readModules_eq_ok.mp hmodules
    have hmid := blanks_skipBlanks mid
    dsimp only at h
    split at h
    · cases h
    next heq =>
      cases h
      refine ⟨_, modules, spelledWithin_list.mpr ?_, .list, rfl⟩
      exact .cons (.first (hblanks.trans hstart)) hrecord (.nil (heq ▸ hmid))
    · cases h

private theorem readTuple_complete {cs rest : List Char} {v : Value} {modules : List (String × List Value)}
    (h : SpelledWithin 127 ('[' :: cs) v rest) (hv : Holds v modules) :
    readTuple cs = .ok (ofModules modules, rest) := by
  cases hv with
  | emptyRecord => cases h.1
  | record => cases h.1
  | emptyList =>
    cases spelledWithin_list.mp h with
    | nil hend =>
      rw [readTuple, hend.skipBlanks_cons (by decide)]
      rfl
  | list =>
    cases spelledWithin_list.mp h with
    | cons hlead hrecord hend =>
      obtain ⟨hblanks⟩ | ⟨⟩ := hlead
      obtain ⟨c, cs', rfl, hc, hclose⟩ := hrecord.starts
      cases hend with
      | nil hend =>
        rw [readTuple, hblanks.skipBlanks_cons hc]
        split
        next heq => cases heq
        next heq => exact absurd (List.cons.inj heq).1 hclose
        next =>
          refine bind_eq_ok.mpr ⟨_, readModules_eq_ok.mpr ⟨_, modules, .none, hrecord, rfl⟩, ?_⟩
          dsimp only
          rw [hend.skipBlanks_cons (by decide)]
          rfl

/-- Nothing may stand behind the options. -/
def finish (read : Options × List Char) : Except Fault Options :=
  match skipBlanks read.2 with
  | [] => .ok read.1
  | _ => .error .malformed

private theorem finish_eq_ok {read : Options × List Char} {o : Options} :
    finish read = .ok o ↔ Blanks read.2 [] ∧ read.1 = o := by
  constructor
  · intro h
    have hblanks := blanks_skipBlanks read.2
    unfold finish at h
    split at h
    next heq => exact ⟨heq ▸ hblanks, Except.ok.inj h⟩
    next => cases h
  · rintro ⟨hblanks, rfl⟩
    rw [finish, hblanks.skipBlanks_eq]
    rfl

theorem readAll_eq_ok {cs : List Char} {o : Options} : readAll cs = .ok o ↔ ∃ start v rest modules,
    Blanks cs start ∧ SpelledWithin 127 start v rest ∧ Blanks rest [] ∧ Holds v modules ∧ ofModules modules = o := by
  constructor
  · intro h
    have hblanks := blanks_skipBlanks cs
    unfold readAll at h
    split at h
    · cases h
    next heq =>
      obtain ⟨⟨options, rest⟩, hread, hfinish⟩ := bind_eq_ok.mp h
      obtain ⟨v, modules, hv, hmodules, rfl⟩ := readRecord_sound hread
      obtain ⟨hrest, rfl⟩ := finish_eq_ok.mp (show finish (_, rest) = .ok o from hfinish)
      exact ⟨_, v, rest, modules, heq ▸ hblanks, hv, hrest, hmodules, rfl⟩
    next heq =>
      obtain ⟨⟨options, rest⟩, hread, hfinish⟩ := bind_eq_ok.mp h
      obtain ⟨v, modules, hv, hmodules, rfl⟩ := readTuple_sound hread
      obtain ⟨hrest, rfl⟩ := finish_eq_ok.mp (show finish (_, rest) = .ok o from hfinish)
      exact ⟨_, v, rest, modules, heq ▸ hblanks, hv, hrest, hmodules, rfl⟩
    · cases h
  · rintro ⟨start, v, rest, modules, hblanks, hv, hrest, hmodules, rfl⟩
    have hfinish : finish (ofModules modules, rest) = .ok (ofModules modules) := finish_eq_ok.mpr ⟨hrest, rfl⟩
    unfold readAll
    cases hv.1 with
    | record =>
      rw [hblanks.skipBlanks_cons (by decide)]
      exact bind_eq_ok.mpr ⟨_, readRecord_complete hv hmodules, hfinish⟩
    | list =>
      rw [hblanks.skipBlanks_cons (by decide)]
      exact bind_eq_ok.mpr ⟨_, readTuple_complete hv hmodules, hfinish⟩
    | _ => cases hmodules

/-- A text spells a value, with blanks around it. -/
def IsTextOf (text : String) (v : Value) : Prop :=
  ∃ start rest, Blanks text.toList start ∧ Spelled start v rest ∧ Blanks rest []

/-- A text is read as options exactly if it spells a value that holds them, and no number in it is too large. -/
theorem ofText_eq_ok {text : String} {o : Options} : ofText text = .ok o ↔
    ∃ v modules, IsTextOf text v ∧ v.Nested IsFinite 127 ∧ Holds v modules ∧ ofModules modules = o := by
  rw [ofText, readAll_eq_ok]
  constructor
  · rintro ⟨start, v, rest, modules, hblanks, hv, hrest, hmodules, ho⟩
    exact ⟨v, modules, ⟨start, rest, hblanks, hv.1, hrest⟩, hv.2, hmodules, ho⟩
  · rintro ⟨v, modules, ⟨start, rest, hblanks, hv, hrest⟩, hnested, hmodules, ho⟩
    exact ⟨start, v, rest, modules, hblanks, ⟨hv, hnested⟩, hrest, hmodules, ho⟩

/-- A text spells one value. -/
theorem IsTextOf.unique {digits : List Char → Prop} {depth : Nat} {text : String} {v w : Value} (hv : IsTextOf text v)
    (hnested : v.Nested digits depth) (hw : IsTextOf text w) : v = w := by
  obtain ⟨start, rest, hblanks, hspelled, hrest⟩ := hv
  obtain ⟨start', rest', hblanks', hspelled', hrest'⟩ := hw
  obtain ⟨c, _, rfl, hc, -⟩ := hspelled.starts
  obtain ⟨d, _, rfl, hd, -⟩ := hspelled'.starts
  obtain ⟨rfl, rfl⟩ := hblanks.unique hc hblanks' hd
  exact (hnested.alone hspelled (hrest.follows follows_nil) hspelled' (hrest'.follows follows_nil)).1

/-- Where a text spells a value, what is read as options is what the value holds. -/
theorem holds_of_ofText {digits : List Char → Prop} {depth : Nat} {text : String} {v : Value} {o : Options}
    (hv : IsTextOf text v) (hnested : v.Nested digits depth) (ho : ofText text = .ok o) :
    v.Nested IsFinite 127 ∧ ∃ modules, Holds v modules ∧ ofModules modules = o := by
  obtain ⟨w, modules, hw, hfinite, hmodules, ho⟩ := ofText_eq_ok.mp ho
  obtain rfl := hv.unique hnested hw
  exact ⟨hfinite, modules, hmodules, ho⟩

theorem twelve_isNumber : IsNumber ['1', '2'] ['1', '2'] [] 0 :=
  .mk (.inl rfl) (@Integer.of_all '1' ['2'] (by decide) rfl) .none .none

theorem twelve_ofSize : OfSize (· ≤ limit * (1 - 1 / 2 ^ 51)) ['1', '2'] := by
  have hlt : 2 ^ 64 < limit := lt_limit
  refine twelve_isNumber.exists_iff.mpr ?_
  rw [show (0 : Int) = (0 : Nat) from rfl, magnitude_natCast, show powerOf ['1', '2'] * 10 ^ 0 = 12 from rfl]
  norm_num
  linarith

/-- The text `[{"m":["f"],"\u006d":[["g"],12]}]`, which gives one module two lists. -/
def twice : String :=
  String.ofList ['[', '{', '"', 'm', '"', ':', '[', '"', 'f', '"', ']', ',', '"', '\\', 'u', '0', '0', '6', 'd', '"', ':',
    '[', '[', '"', 'g', '"', ']', ',', '1', '2', ']', '}', ']']

private theorem twice_isTextOf :
    IsTextOf twice (.list [record [("m", [.text "f"]), ("m", [.list [.text "g"], .number "12"])]]) := by
  have htext : twice.toList = _ := String.toList_ofList
  have hone {c : Char} (h : ' ' ≤ c ∧ c ≠ '"' ∧ c ≠ '\\') (rest : List Char) : Quoted (c :: '"' :: rest) [c] rest :=
    .plain h.1 h.2.1 h.2.2 .close
  have hlist {c : Char} (h : ' ' ≤ c ∧ c ≠ '"' ∧ c ≠ '\\') (rest : List Char) :
      Spelled ('[' :: '"' :: c :: '"' :: ']' :: rest) (.list [.text (String.ofList [c])]) rest :=
    .list (.cons (.first .none) (.text (hone h _)) (.nil .none))
  have hunit (rest : List Char) : HexUnit ('0' :: '0' :: '6' :: 'd' :: rest) 109 rest :=
    .mk (p := 0) (q := 0) (r := 6) (s := 13) rfl rfl rfl rfl
  have hescape (rest : List Char) : Quoted ('\\' :: 'u' :: '0' :: '0' :: '6' :: 'd' :: '"' :: rest) ['m'] rest :=
    .escape (.unit (hunit _) rfl rfl) .close
  unfold IsTextOf
  rw [htext]
  refine ⟨_, [], .none, .list (.cons (.first .none) (.record ?_) (.nil .none)), .none⟩
  refine .cons (.first .none) (.mk (hone (by decide) _) .none .none (hlist (by decide) _)) ?_
  refine .cons (.next .none .none) (.mk (hescape _) .none .none (.list ?_)) (.nil .none)
  exact .cons (.first .none) (hlist (by decide) _) (.cons (.next .none .none) (.number twelve_isNumber rfl) (.nil .none))

private theorem twice_nested {digits : List Char → Prop} (h : digits ['1', '2']) :
    (Value.list [record [("m", [.text "f"]), ("m", [.list [.text "g"], .number "12"])]]).Nested digits 127 := by
  refine .list (List.forall_mem_singleton.mpr (.record ?_))
  refine List.forall_mem_cons.mpr ⟨?_, List.forall_mem_singleton.mpr (.list ?_)⟩
  · exact .list (List.forall_mem_singleton.mpr .text)
  · refine List.forall_mem_cons.mpr ⟨.list (List.forall_mem_singleton.mpr .text), ?_⟩
    exact List.forall_mem_singleton.mpr (.number h)

/-- The text `{"pureCalls":{"m":[…]}}` with a number in the list. -/
def listing (digits : List Char) : String :=
  String.ofList (['{', '"', 'p', 'u', 'r', 'e', 'C', 'a', 'l', 'l', 's', '"', ':', '{', '"', 'm', '"', ':', '['] ++
    (digits ++ [']', '}', '}']))

/-- The value that it spells. -/
def listed (digits : List Char) : Value :=
  .record [("pureCalls", record [("m", [.number (String.ofList digits)])])]

private theorem listing_isTextOf {digits integer fraction : List Char} {power : Int}
    (h : IsNumber digits integer fraction power) : IsTextOf (listing digits) (listed digits) := by
  have htext : (listing digits).toList = _ := String.toList_ofList
  have hlist : Spelled ('[' :: (digits ++ [']', '}', '}'])) (.list [.number (String.ofList digits)]) ['}', '}'] :=
    .list (.cons (.first .none) (.number h rfl) (.nil .none))
  have hkey (rest : List Char) : Quoted ('m' :: '"' :: rest) ['m'] rest :=
    @Quoted.of_plain ['m'] rfl rest
  have hname (rest : List Char) : Quoted ('p' :: 'u' :: 'r' :: 'e' :: 'C' :: 'a' :: 'l' :: 'l' :: 's' :: '"' :: rest)
      ['p', 'u', 'r', 'e', 'C', 'a', 'l', 'l', 's'] rest :=
    @Quoted.of_plain ['p', 'u', 'r', 'e', 'C', 'a', 'l', 'l', 's'] rfl rest
  have hmodules := Spelled.record (.cons (.first .none) (.mk (hkey _) .none .none hlist) (.nil .none))
  have hrecord := Spelled.record (.cons (.first .none) (.mk (hname _) .none .none hmodules) (.nil .none))
  exact ⟨_, [], htext ▸ .none, hrecord, .none⟩

private theorem listed_nested_iff {digits : List Char} {wanted : List Char → Prop} :
    (listed digits).Nested wanted 127 ↔ wanted digits := by
  constructor
  · rintro (_ | _ | _ | _ | _ | hmodules)
    obtain ⟨⟩ | ⟨⟩ | ⟨⟩ | ⟨⟩ | ⟨⟩ | hlists := List.forall_mem_singleton.mp hmodules
    obtain ⟨⟩ | ⟨⟩ | ⟨⟩ | ⟨⟩ | hitems | ⟨⟩ := List.forall_mem_singleton.mp hlists
    obtain ⟨⟩ | ⟨⟩ | h | ⟨⟩ | ⟨⟩ | ⟨⟩ := List.forall_mem_singleton.mp hitems
    rwa [String.toList_ofList] at h
  · intro h
    refine .record (List.forall_mem_singleton.mpr (.record (List.forall_mem_singleton.mpr (.list ?_))))
    exact List.forall_mem_singleton.mpr (.number (by rwa [String.toList_ofList]))

private theorem listed_nested {digits : List Char} : (listed digits).Nested (fun _ => True) 127 :=
  listed_nested_iff.mpr trivial

private theorem not_isTextOf_listing {digits integer fraction : List Char} {power : Int}
    (h : IsNumber digits integer fraction power) {wanted : List Char → Prop} (hnot : ¬ wanted digits) (v : Value)
    (hv : v.Nested wanted 127) : ¬ IsTextOf (listing digits) v := by
  intro htext
  rw [← (listing_isTextOf h).unique listed_nested htext] at hv
  exact hnot (listed_nested_iff.mp hv)

private theorem ofText_listing_iff {digits integer fraction : List Char} {power : Int}
    (h : IsNumber digits integer fraction power) : (∃ o, ofText (listing digits) = .ok o) ↔ IsFinite digits := by
  constructor
  · rintro ⟨o, ho⟩
    exact listed_nested_iff.mp (holds_of_ofText (listing_isTextOf h) listed_nested ho).1
  · intro hfinite
    exact ⟨_, ofText_eq_ok.mpr ⟨_, _, listing_isTextOf h, listed_nested_iff.mpr hfinite, .record, rfl⟩⟩

/-- A number beyond the doubles. -/
def huge : List Char :=
  ['1', 'e', '3', '1', '0']

private theorem huge_isNumber : IsNumber huge ['1'] [] (powerOf ['3', '1', '0']) :=
  @IsNumber.of_power _ ['1'] _ (Integer.of_all (by decide) rfl) rfl

private theorem huge_not_ofSize : ¬ OfSize (· < limit * (1 + 1 / 2 ^ 51)) huge := by
  have hle : limit * (1 + 1 / 2 ^ 51) ≤ 10 * 10 ^ 309 := by
    calc limit * (1 + 1 / 2 ^ 51) ≤ limit * 10 := mul_le_mul_of_nonneg_left (by norm_num) limit_pos.le
      _ ≤ 10 ^ 309 * 10 := mul_le_mul_of_nonneg_right limit_lt.le (by norm_num)
      _ = 10 * 10 ^ 309 := mul_comm _ _
  rw [OfSize, huge_isNumber.exists_iff, magnitude_natCast, show powerOf ['1'] * _ = 10 * 10 ^ 309 by decide +kernel,
    Nat.cast_mul, Nat.cast_pow, Nat.cast_ofNat]
  exact not_lt.mpr hle

/-- A number a little below the largest double. -/
def below : List Char :=
  ['1', '7', '9', '7', '6', '9', '3', '1', '3', '4', '8', '6', '2', '3', '1', '5', '7', '0', '8', 'e', '2', '9', '0']

/-- A number a little beyond the doubles. -/
def beyond : List Char :=
  ['1', '7', '9', '7', '6', '9', '3', '1', '3', '4', '8', '6', '2', '3', '1', '5', '9', '9', 'e', '2', '9', '1']

private theorem below_isNumber : IsNumber below (below.take 19) [] (powerOf ['2', '9', '0']) :=
  @IsNumber.of_power _ (below.take 19) _ (Integer.of_all (by decide) rfl) rfl

private theorem beyond_isNumber : IsNumber beyond (beyond.take 18) [] (powerOf ['2', '9', '1']) :=
  @IsNumber.of_power _ (beyond.take 18) _ (Integer.of_all (by decide) rfl) rfl

/-- A text that spells a value is read as options exactly if the value holds options, and those are read. Any other
text is refused, and so is one with a number beyond the doubles. Numbers next to the limit of the doubles are rounded
one way or the other, so of those it is left open whether they are refused. -/
theorem ofText_accepts_exactly (text : String) :
    (∀ v : Value, v.Nested (fun _ => True) 127 → IsTextOf text v →
      (v.Nested (OfSize (· ≤ limit * (1 - 1 / 2 ^ 51))) 127 →
        ((∃ o, ofText text = .ok o) ↔ ∃ modules, Holds v modules)) ∧
      ∀ o, ofText text = .ok o → v.Nested (OfSize (· < limit * (1 + 1 / 2 ^ 51))) 127 ∧
        ∃ modules, Holds v modules ∧ o.Collects modules) ∧
    ((∀ v : Value, v.Nested (OfSize (· < limit * (1 + 1 / 2 ^ 51))) 127 → ¬ IsTextOf text v) →
      ∃ fault, ofText text = .error fault) := by
  refine ⟨fun v hnested htext => ⟨fun hsmall => ⟨?_, ?_⟩, fun o ho => ?_⟩, fun hno => ?_⟩
  · rintro ⟨o, ho⟩
    obtain ⟨-, modules, hmodules, -⟩ := holds_of_ofText htext hnested ho
    exact ⟨modules, hmodules⟩
  · rintro ⟨modules, hmodules⟩
    have hfinite : v.Nested IsFinite 127 := hsmall.imp fun _ h => h.isFinite
    exact ⟨_, ofText_eq_ok.mpr ⟨v, modules, htext, hfinite, hmodules, rfl⟩⟩
  · obtain ⟨hfinite, modules, hmodules, rfl⟩ := holds_of_ofText htext hnested ho
    exact ⟨hfinite.imp fun _ h => h.ofSize, modules, hmodules, ofModules_collects modules⟩
  · cases hread : ofText text with
    | error fault => exact ⟨fault, rfl⟩
    | ok o =>
      obtain ⟨v, modules, hv, hfinite, -⟩ := ofText_eq_ok.mp hread
      exact absurd hv (hno v (hfinite.imp fun _ h => h.ofSize))

theorem ofText_accepts_twice :
    (∃ v : Value, v.Nested (OfSize (· ≤ limit * (1 - 1 / 2 ^ 51))) 127 ∧ IsTextOf twice v ∧ ∃ o modules,
      ofText twice = .ok o ∧ o.modules = [("m", [.chain ["g"], .unrecognized])] ∧ Holds v modules ∧
        o.Collects modules) ∧
    (∀ v : Value, v.Nested (OfSize (· < limit * (1 + 1 / 2 ^ 51))) 127 → ¬ IsTextOf (listing huge) v) ∧
      ∃ fault, ofText (listing huge) = .error fault := by
  obtain ⟨haccepts, hcollects⟩ := (ofText_accepts_exactly twice).1 _ (twice_nested trivial) twice_isTextOf
  obtain ⟨o, ho⟩ := (haccepts (twice_nested twelve_ofSize)).mpr ⟨_, .list⟩
  obtain ⟨-, modules, hmodules, ho'⟩ := hcollects o ho
  have hread : ofText twice = .ok ⟨[("m", [.chain ["g"], .unrecognized])]⟩ :=
    ofText_eq_ok.mpr ⟨_, _, twice_isTextOf, twice_nested twelve_ofSize.isFinite, .list, rfl⟩
  obtain rfl := Except.ok.inj (ho.symm.trans hread)
  have hno := not_isTextOf_listing huge_isNumber huge_not_ofSize
  exact ⟨⟨_, twice_nested twelve_ofSize, twice_isTextOf, _, modules, ho, rfl, hmodules, ho'⟩, hno,
    (ofText_accepts_exactly (listing huge)).2 hno⟩

/-- The largest double does not tell the numbers that are refused from the others: rounding refuses one below it, and
lets one through that is beyond it. -/
theorem ofText_rounds_listing :
    (∃ v modules, v.Nested (OfSize (· ≤ largest)) 127 ∧ IsTextOf (listing below) v ∧ Holds v modules ∧
      ∃ fault, ofText (listing below) = .error fault) ∧
    (∀ v : Value, v.Nested (OfSize (· ≤ largest)) 127 → ¬ IsTextOf (listing beyond) v) ∧
      ∃ o, ofText (listing beyond) = .ok o := by
  refine ⟨⟨listed below, _, listed_nested_iff.mpr ?_, listing_isTextOf below_isNumber, .record, ?_⟩,
    not_isTextOf_listing beyond_isNumber ?_, ?_⟩
  · rw [OfSize, below_isNumber.exists_iff, magnitude_natCast, cast_le_largest]
    decide +kernel
  · cases hread : ofText (listing below) with
    | error fault => exact ⟨fault, rfl⟩
    | ok o =>
      have hfinite := (ofText_listing_iff below_isNumber).mp ⟨o, hread⟩
      rw [IsFinite, below_isNumber.exists_iff] at hfinite
      exact absurd hfinite (by decide +kernel)
  · rw [OfSize, beyond_isNumber.exists_iff, magnitude_natCast, cast_le_largest]
    decide +kernel
  · rw [ofText_listing_iff beyond_isNumber, IsFinite, beyond_isNumber.exists_iff]
    decide +kernel

end Options
end PureCalls
