import Mathlib.Data.List.Induction
import PureCalls.Proofs.Verdict

/-! What a verdict says: an expression is pure exactly if it spells a binding and a path, the last import of the
binding names an export, and the options list the export with a beginning of the path. -/
namespace PureCalls
open PureCalls.Tree

/-- Whether an expression is an identifier that stands for a binding, with accesses of the named properties behind it
and parentheses anywhere around. -/
inductive Spells : Tree → Binding → List String → Prop
  | identifier {span fields name context} (hname : lookup .value fields = .text name)
      (hcontext : lookup .ctxt fields = .number context 0) :
      Spells (.node .identifier span fields) ⟨name, context⟩ []
  | paren {span fields root path} (h : Spells (lookup .expression fields) root path) :
      Spells (.node .paren span fields) root path
  | member {span fields root path place inside name} (h : Spells (lookup .object fields) root path)
      (hproperty : lookup .property fields = .node .identifier place inside)
      (hname : lookup .value inside = .text name) :
      Spells (.node .member span fields) root (path ++ [name])

namespace Tree

private theorem text?_eq_some_iff {t : Tree} {s : String} : t.text? = some s ↔ t = .text s := by
  cases t <;> simp [text?]

theorem binding?_eq_some_iff {t : Tree} {b : Binding} : t.binding? = some b ↔ ∃ span fields,
    t = .node .identifier span fields ∧ lookup .value fields = .text b.name ∧
      lookup .ctxt fields = .number b.context 0 := by
  constructor
  · intro h
    unfold binding? at h
    split at h
    next span fields =>
      split at h
      next name context hname hcontext =>
        cases h
        exact ⟨span, fields, rfl, hname, hcontext⟩
      next => cases h
    next => cases h
  · rintro ⟨span, fields, rfl, hname, hcontext⟩
    simp only [binding?, Kind.identifier, hname, hcontext]

end Tree

namespace Callee

private theorem propertyName?_eq_some_iff {t : Tree} {name : String} : propertyName? t = some name ↔ ∃ span fields,
    t = .node .identifier span fields ∧ lookup .value fields = .text name := by
  constructor
  · intro h
    unfold propertyName? at h
    split at h
    next span fields => exact ⟨span, fields, rfl, text?_eq_some_iff.mp h⟩
    next => cases h
  · rintro ⟨span, fields, rfl, hname⟩
    simp only [propertyName?, Kind.identifier, hname, text?]

private theorem ofTree_identifier (span : Option Span) (fields : List (Field × Tree)) :
    ofTree (.node .identifier span fields) = (Tree.node .identifier span fields).binding?.map (⟨·, []⟩) := by
  rw [ofTree, if_pos rfl]

private theorem spells_of_ofTree {t : Tree} {callee : Callee} (h : ofTree t = some callee) :
    Spells t callee.root callee.path := by
  induction t using induction_lookup generalizing callee with
  | leaf t hk =>
    cases t with
    | node => cases hk
    | _ => cases h
  | node kind span fields ih =>
    by_cases hi : kind = .identifier
    · subst hi
      rw [ofTree_identifier] at h
      obtain ⟨b, hb, rfl⟩ := Option.map_eq_some_iff.mp h
      obtain ⟨_, _, heq, hname, hcontext⟩ := binding?_eq_some_iff.mp hb
      cases heq
      exact .identifier hname hcontext
    by_cases hparen : kind = .paren
    · subst hparen
      rw [ofTree_paren] at h
      exact .paren (ih .expression h)
    by_cases hm : kind = .member
    · subst hm
      rw [ofTree_member] at h
      obtain ⟨name, hname, h⟩ := Option.bind_eq_some_iff.mp h
      obtain ⟨object, hobject, rfl⟩ := Option.map_eq_some_iff.mp h
      obtain ⟨place, inside, hproperty, hvalue⟩ := propertyName?_eq_some_iff.mp hname
      exact .member (ih .object hobject) hproperty hvalue
    · rw [ofTree_other hi hparen hm] at h
      cases h

/-- The walk from a callee to its root finds what the callee spells. -/
theorem ofTree_eq_some_iff {t : Tree} {root : Binding} {path : List String} :
    ofTree t = some ⟨root, path⟩ ↔ Spells t root path := by
  refine ⟨spells_of_ofTree, fun h => ?_⟩
  induction h with
  | @identifier span fields name context hname hcontext =>
    have hb : (Tree.node .identifier span fields).binding? = some ⟨name, context⟩ :=
      binding?_eq_some_iff.mpr ⟨span, fields, rfl, hname, hcontext⟩
    rw [ofTree_identifier, hb, Option.map_some]
  | paren _ ih => rw [ofTree_paren, ih]
  | member _ hproperty hname ih =>
    rw [ofTree_member, propertyName?_eq_some_iff.mpr ⟨_, _, hproperty, hname⟩, ih, Option.bind_some, Option.map_some]

end Callee

/-- Whether a specifier of an import declaration brings in a value for a binding, and under which exported name. -/
inductive Introduces (specifier : Tree) (b : Binding) : Option String → Prop
  | default (hkind : specifier.kind? = some .importDefault)
      (hlocal : (specifier.field .localName).binding? = some b) : Introduces specifier b (some "default")
  | namespace (hkind : specifier.kind? = some .importNamespace)
      (hlocal : (specifier.field .localName).binding? = some b) : Introduces specifier b (some "*")
  | renamed (hkind : specifier.kind? = some .importNamed) (hvalue : specifier.flag .isTypeOnly = false)
      (hlocal : (specifier.field .localName).binding? = some b)
      (himported : (specifier.field .imported).isNull = false) :
      Introduces specifier b ((specifier.field .imported).field .value).text?
  | named (hkind : specifier.kind? = some .importNamed) (hvalue : specifier.flag .isTypeOnly = false)
      (hlocal : (specifier.field .localName).binding? = some b)
      (himported : (specifier.field .imported).isNull = true) : Introduces specifier b (some b.name)

namespace Imports

/-- The specifiers of the declarations of a module that import values, each with its source, from first to last. -/
def specifiers (program : Tree) : List (Option String × Tree) :=
  ((program.field .body).items.filter fun item => item.isKind .importDeclaration && !item.flag .typeOnly).flatMap
    fun item => (item.field .specifiers).items.map fun s => (((item.field .source).field .value).text?, s)

/-- Whether a binding is imported, and by which of the specifiers that introduce it: the last one. -/
def LastImport (program : Tree) (b : Binding) (i : Import) : Prop :=
  ∃ before specifier after, specifiers program = before ++ (i.source, specifier) :: after ∧
    Introduces specifier b i.exported ∧ ∀ later ∈ after, ∀ name, ¬ Introduces later.2 b name

private def addNext (imports : Imports) (x : Option String × Tree) : Imports :=
  addSpecifier x.1 imports x.2

private theorem foldl_addItem (items : List Tree) (imports : Imports) : items.foldl addItem imports =
    ((items.filter fun item => item.isKind .importDeclaration && !item.flag .typeOnly).flatMap fun item =>
      (item.field .specifiers).items.map fun s => (((item.field .source).field .value).text?, s)).foldl
        addNext imports := by
  induction items generalizing imports with
  | nil => rfl
  | cons item items ih =>
    rw [List.foldl_cons, ih, addItem, List.filter_cons]
    split
    · rw [List.flatMap_cons, List.foldl_append, List.foldl_map]
      rfl
    · rfl

private theorem ofModule_eq (program : Tree) : ofModule program = (specifiers program).foldl addNext [] :=
  foldl_addItem _ []

theorem text?_localName {specifier : Tree} {b : Binding}
    (h : (specifier.field .localName).binding? = some b) :
    ((specifier.field .localName).field .value).text? = some b.name := by
  obtain ⟨_, _, heq, hname, -⟩ := binding?_eq_some_iff.mp h
  rw [heq]
  exact text?_eq_some_iff.mpr hname

/-- A specifier introduces a binding exactly if it binds it and has an exported name. -/
theorem introduces_iff {specifier : Tree} {b : Binding} {name : Option String} : Introduces specifier b name ↔
    (specifier.field .localName).binding? = some b ∧ exportedName? specifier = some name := by
  constructor
  · intro h
    cases h with
    | default hkind hlocal => exact ⟨hlocal, by simp only [exportedName?, hkind, Kind.importDefault]⟩
    | «namespace» hkind hlocal => exact ⟨hlocal, by simp only [exportedName?, hkind, Kind.importNamespace]⟩
    | renamed hkind hvalue hlocal himported =>
      exact ⟨hlocal, by simp [exportedName?, hkind, Kind.importNamed, hvalue, himported]⟩
    | named hkind hvalue hlocal himported =>
      exact ⟨hlocal, by simp [exportedName?, hkind, Kind.importNamed, hvalue, himported, text?_localName hlocal]⟩
  · rintro ⟨hlocal, h⟩
    unfold exportedName? at h
    split at h
    next hkind =>
      cases h
      exact .default hkind hlocal
    next hkind =>
      cases h
      exact .namespace hkind hlocal
    next hkind =>
      split at h
      next => cases h
      next hvalue =>
        split at h
        next himported =>
          rw [text?_localName hlocal] at h
          cases h
          exact .named hkind (Bool.not_eq_true _ ▸ hvalue) hlocal himported
        next himported =>
          cases h
          exact .renamed hkind (Bool.not_eq_true _ ▸ hvalue) hlocal (Bool.not_eq_true _ ▸ himported)
    next => cases h

private theorem find?_addNext {x : Option String × Tree} {b : Binding} {name : Option String}
    (h : Introduces x.2 b name) (imports : Imports) :
    (addNext imports x).find? b = some ⟨x.1, name⟩ := by
  obtain ⟨hlocal, hname⟩ := introduces_iff.mp h
  simp [addNext, addSpecifier, hlocal, hname, find?]

private theorem find?_addNext_of_not {x : Option String × Tree} {b : Binding}
    (h : ∀ name, ¬ Introduces x.2 b name) (imports : Imports) :
    (addNext imports x).find? b = imports.find? b := by
  unfold addNext addSpecifier
  split
  next c name hlocal hname =>
    have hne : c ≠ b := fun hc => h name (introduces_iff.mpr ⟨hc ▸ hlocal, hname⟩)
    rw [find?, if_neg hne]
  next => rfl

private theorem concat_eq_split {α : Type} {xs before after : List α} {x y : α}
    (h : xs ++ [x] = before ++ y :: after) :
    after = [] ∧ x = y ∨ ∃ rest, after = rest ++ [x] ∧ xs = before ++ y :: rest := by
  rcases List.eq_nil_or_concat' after with rfl | ⟨rest, last, rfl⟩
  · exact Or.inl ⟨rfl, List.singleton_inj.mp (List.append_inj' h rfl).2⟩
  · have hsplit : xs ++ [x] = (before ++ y :: rest) ++ [last] := by simpa using h
    obtain ⟨hxs, hx⟩ := List.append_inj' hsplit rfl
    exact Or.inr ⟨rest, by rw [List.singleton_inj.mp hx], hxs⟩

/-- The import that is found for a binding is the last one that introduces it. -/
theorem find?_ofModule_eq_some_iff {program : Tree} {b : Binding} {i : Import} :
    (ofModule program).find? b = some i ↔ LastImport program b i := by
  rw [ofModule_eq, LastImport]
  induction specifiers program using List.reverseRecOn with
  | nil => simp [find?]
  | append_singleton xs x ih =>
    rw [List.foldl_append, List.foldl_cons, List.foldl_nil]
    by_cases h : ∃ name, Introduces x.2 b name
    · obtain ⟨name, h⟩ := h
      rw [find?_addNext h]
      constructor
      · intro hi
        cases hi
        exact ⟨xs, x.2, [], rfl, h, by simp⟩
      · rintro ⟨before, specifier, after, heq, hi, hlast⟩
        rcases concat_eq_split heq with ⟨-, rfl⟩ | ⟨rest, rfl, -⟩
        · have hname := (introduces_iff.mp h).2.symm.trans (introduces_iff.mp hi).2
          rw [Option.some.inj hname]
        · exact absurd h (hlast x (by simp) name)
    · push Not at h
      rw [find?_addNext_of_not h, ih]
      constructor
      · rintro ⟨before, specifier, after, rfl, hi, hlast⟩
        refine ⟨before, specifier, after ++ [x], by simp, hi, ?_⟩
        exact List.forall_mem_append.mpr ⟨hlast, List.forall_mem_singleton.mpr h⟩
      · rintro ⟨before, specifier, after, heq, hi, hlast⟩
        rcases concat_eq_split heq with ⟨-, rfl⟩ | ⟨rest, rfl, rfl⟩
        · exact absurd hi (h i.exported)
        · exact ⟨before, specifier, rest, rfl, hi, (List.forall_mem_append.mp hlast).1⟩

end Imports

/-- Whether an entry in the list of a module speaks of the member at the end of a path from an export. -/
inductive Entry.Covers (name : String) : List String → Entry → Prop
  | plain : Entry.Covers name [] (.plain name)
  | alone : Entry.Covers name [] (.chain [name])
  | chain {path beginning} (h : beginning ≠ []) (hbegins : beginning <+: path) :
      Entry.Covers name path (.chain (name :: beginning))

namespace Entry
variable {name : String} {path : List String}

theorem covers_plain {other : String} : (plain other).Covers name path ↔ other = name ∧ path = [] := by
  constructor
  · rintro ⟨⟩
    exact ⟨rfl, rfl⟩
  · rintro ⟨rfl, rfl⟩
    exact .plain

theorem covers_chain {root : String} {beginning : List String} : (chain (root :: beginning)).Covers name path ↔
    root = name ∧ if beginning = [] then path = [] else beginning <+: path := by
  constructor
  · intro h
    cases h with
    | alone => exact ⟨rfl, rfl⟩
    | chain h hbegins => exact ⟨rfl, by rwa [if_neg h]⟩
  · rintro ⟨rfl, h⟩
    split at h
    next hb =>
      rw [hb, h]
      exact .alone
    next hb => exact .chain hb h

theorem not_covers_nil : ¬ (chain []).Covers name path := nofun

theorem not_covers_unrecognized : ¬ unrecognized.Covers name path := nofun

end Entry

/-- Whether the options have an entry for a module. -/
def Options.Lists (options : Options) (source : String) (entry : Entry) : Prop :=
  ∃ m ∈ options.modules, m.1 = source ∧ entry ∈ m.2

namespace Patterns

/-- Whether patterns speak of the member at the end of a path from an export: they name the export itself, or they
have a chain from it along a beginning of the path. -/
def Allows (p : Patterns) (name : String) (path : List String) : Prop :=
  if path = [] then name ∈ p.plain else ∃ chain ∈ p.chains, chain.root = name ∧ chain.path <+: path

/-- Sorting an entry in adds what it covers and nothing else. -/
theorem allows_add (p : Patterns) (entry : Entry) (name : String) (path : List String) :
    (p.add entry).Allows name path ↔ p.Allows name path ∨ entry.Covers name path := by
  unfold add
  split
  next other =>
    rw [Entry.covers_plain]
    by_cases hpath : path = [] <;> simp [Allows, hpath, eq_comm]
  next => simp [Entry.not_covers_nil]
  next other =>
    rw [Entry.covers_chain]
    by_cases hpath : path = [] <;> simp [Allows, hpath, eq_comm]
  next root beginning hbeginning =>
    have hne : beginning ≠ [] := fun h => hbeginning h
    rw [Entry.covers_chain, if_neg hne]
    by_cases hpath : path = []
    · simp [Allows, hpath, hne]
    · simp [Allows, hpath, or_and_right, exists_or]
  next => simp [Entry.not_covers_unrecognized]

theorem allows_ofEntries (entries : List Entry) (name : String) (path : List String) :
    (ofEntries entries).Allows name path ↔ ∃ entry ∈ entries, entry.Covers name path := by
  have hfold (p : Patterns) : (entries.foldl add p).Allows name path ↔
      p.Allows name path ∨ ∃ entry ∈ entries, entry.Covers name path := by
    induction entries generalizing p with
    | nil => simp
    | cons entry entries ih => rw [List.foldl_cons, ih, allows_add, List.exists_mem_cons_iff, or_assoc]
  have hempty : ¬ ({} : Patterns).Allows name path := by simp [Allows]
  rw [ofEntries, hfold]
  exact or_iff_right hempty

end Patterns

namespace Imports

private theorem refersTo_iff {imports : Imports} {b : Binding} {source : String} {names : List String} :
    imports.refersTo b source names = true ↔
      ∃ i name, imports.find? b = some i ∧ i.source = some source ∧ i.exported = some name ∧ name ∈ names := by
  unfold refersTo
  split
  next i hi => simp [hi, Option.any_eq_true]
  next hi => simp [hi]

end Imports

/-- A whitelist has a callee exactly if its root is an import that the patterns of its module allow. -/
theorem Callee.isAllowed_iff {w : Whitelist} {imports : Imports} {callee : Callee} :
    callee.isAllowed w imports = true ↔ ∃ i name, imports.find? callee.root = some i ∧ i.exported = some name ∧
      ∃ m ∈ w.modules, i.source = some m.1 ∧ m.2.Allows name callee.path := by
  have hmodule (m : String × Patterns) :
      (if callee.path.isEmpty then imports.refersTo callee.root m.1 m.2.plain
        else m.2.chains.any fun chain =>
          chain.path.isPrefixOf callee.path && imports.refersTo callee.root m.1 [chain.root]) = true ↔
      ∃ i name, imports.find? callee.root = some i ∧ i.source = some m.1 ∧ i.exported = some name ∧
        m.2.Allows name callee.path := by
    by_cases hpath : callee.path = []
    · simp [hpath, Imports.refersTo_iff, Patterns.Allows]
    · simp only [hpath, List.isEmpty_iff, if_false, List.any_eq_true, Bool.and_eq_true, List.isPrefixOf_iff_prefix,
        Imports.refersTo_iff, List.mem_singleton, Patterns.Allows]
      constructor
      · rintro ⟨chain, hchain, hbegins, i, name, hi, hsource, hexported, hname⟩
        exact ⟨i, name, hi, hsource, hexported, chain, hchain, hname.symm, hbegins⟩
      · rintro ⟨i, name, hi, hsource, hexported, chain, hchain, hname, hbegins⟩
        exact ⟨chain, hchain, hbegins, i, name, hi, hsource, hexported, hname.symm⟩
  simp only [isAllowed, List.any_eq_true, hmodule]
  constructor
  · rintro ⟨m, hm, i, name, hi, hsource, hexported, h⟩
    exact ⟨i, name, hi, hexported, m, hm, hsource, h⟩
  · rintro ⟨i, name, hi, hexported, m, hm, hsource, h⟩
    exact ⟨m, hm, i, name, hi, hsource, hexported, h⟩

/-- An import is allowed by the patterns of its module exactly if the options list an entry that covers the path. -/
theorem Options.allows_iff {options : Options} {i : Import} {name : String} {path : List String} :
    (∃ m ∈ (Whitelist.ofOptions options).modules, i.source = some m.1 ∧ m.2.Allows name path) ↔
      ∃ source entry, i.source = some source ∧ options.Lists source entry ∧ entry.Covers name path := by
  simp only [Whitelist.ofOptions, List.mem_map]
  constructor
  · rintro ⟨_, ⟨m, hm, rfl⟩, hsource, h⟩
    obtain ⟨entry, hentry, hcovers⟩ := (Patterns.allows_ofEntries m.2 name path).mp h
    exact ⟨m.1, entry, hsource, ⟨m, hm, rfl, hentry⟩, hcovers⟩
  · rintro ⟨_, entry, hsource, ⟨m, hm, rfl, hentry⟩, hcovers⟩
    exact ⟨_, ⟨m, hm, rfl⟩, hsource, (Patterns.allows_ofEntries m.2 name path).mpr ⟨entry, hentry, hcovers⟩⟩

/-- An expression is pure exactly if it spells a path from a binding, the last import of the binding names an export
of a module, and the options of that module have an entry that covers the path from the export. -/
theorem isPure_iff_listed (options : Options) (program callee : Tree) :
    isPure (.ofOptions options) (.ofModule program) callee = true ↔
      ∃ root path i source name entry, Spells callee root path ∧ Imports.LastImport program root i ∧
        i.source = some source ∧ i.exported = some name ∧ options.Lists source entry ∧ entry.Covers name path := by
  have hpure : isPure (.ofOptions options) (.ofModule program) callee = true ↔ ∃ c, Callee.ofTree callee = some c ∧
      c.isAllowed (.ofOptions options) (.ofModule program) = true := by
    unfold isPure
    cases Callee.ofTree callee <;> simp
  rw [hpure]
  constructor
  · rintro ⟨⟨root, path⟩, hc, hallowed⟩
    obtain ⟨i, name, hi, hexported, hm⟩ := Callee.isAllowed_iff.mp hallowed
    obtain ⟨source, entry, hsource, hlisted⟩ := Options.allows_iff.mp hm
    exact ⟨root, path, i, source, name, entry, Callee.ofTree_eq_some_iff.mp hc,
      Imports.find?_ofModule_eq_some_iff.mp hi, hsource, hexported, hlisted⟩
  · rintro ⟨root, path, i, source, name, entry, hspells, hlast, hsource, hexported, hlisted⟩
    refine ⟨⟨root, path⟩, Callee.ofTree_eq_some_iff.mpr hspells, Callee.isAllowed_iff.mpr ⟨i, name, ?_⟩⟩
    have hm := Options.allows_iff.mpr ⟨source, entry, hsource, hlisted⟩
    exact ⟨Imports.find?_ofModule_eq_some_iff.mpr hlast, hexported, hm⟩

end PureCalls
