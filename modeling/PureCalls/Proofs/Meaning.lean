import PureCalls.Proofs.Matching
import PureCalls.Proofs.Sequence

/-! What options mean: the names and the shortest chains that they list for each module. A run does not depend on
anything else in them, neither on an order, nor on repetitions, spellings and entries without effect. -/
namespace PureCalls

/-- The name that an entry stands for. A chain of one name is that name. -/
def Entry.name? : Entry → Option String
  | .plain name | .chain [name] => some name
  | _ => none

/-- The chain that an entry stands for, of two names or more. -/
def Entry.chain? : Entry → Option ChainPattern
  | .chain (root :: first :: path) => some ⟨root, first :: path⟩
  | _ => none

/-- Whether a chain goes on where a shorter one from the same export ends. -/
def ChainPattern.Extends (chain shorter : ChainPattern) : Prop :=
  shorter.root = chain.root ∧ shorter.path <+: chain.path ∧ shorter.path ≠ chain.path

instance (chain shorter : ChainPattern) : Decidable (chain.Extends shorter) :=
  inferInstanceAs (Decidable (_ ∧ _ ∧ _))

/-- The names and the chains of each module. -/
structure Meaning where
  names : Finset (String × String)
  chains : Finset (String × ChainPattern)
  deriving DecidableEq

/-- Whether a meaning has the member at the end of a path from an export of a module. -/
def Meaning.Allows (meaning : Meaning) (source name : String) (path : List String) : Prop :=
  path = [] ∧ (source, name) ∈ meaning.names ∨
    ∃ chain, (source, chain) ∈ meaning.chains ∧ chain.root = name ∧ chain.path <+: path

namespace Options

/-- All that is found in the entries of options, each with its module. -/
def collect {α : Type} [DecidableEq α] (options : Options) (find : Entry → Option α) : Finset (String × α) :=
  (options.modules.flatMap fun m => m.2.filterMap fun entry => (find entry).map (m.1, ·)).toFinset

/-- The chains of options without those that extend another one of the same module. -/
def shortest (options : Options) : Finset (String × ChainPattern) :=
  (options.collect Entry.chain?).filter fun x =>
    ∀ y ∈ options.collect Entry.chain?, ¬ (y.1 = x.1 ∧ x.2.Extends y.2)

def meaning (options : Options) : Meaning :=
  ⟨options.collect Entry.name?, options.shortest⟩

variable {options : Options} {source name : String} {path : List String}

private theorem mem_collect {α : Type} [DecidableEq α] {find : Entry → Option α} {x : α} :
    (source, x) ∈ options.collect find ↔ ∃ entry, options.Lists source entry ∧ find entry = some x := by
  simp only [collect, List.mem_toFinset, List.mem_flatMap, List.mem_filterMap, Option.map_eq_some_iff, Prod.mk.injEq]
  constructor
  · rintro ⟨m, hm, entry, hentry, _, hx, rfl, rfl⟩
    exact ⟨entry, ⟨m, hm, rfl, hentry⟩, hx⟩
  · rintro ⟨entry, ⟨m, hm, rfl, hentry⟩, hx⟩
    exact ⟨m, hm, entry, hentry, x, hx, rfl, rfl⟩

end Options

/-- An entry covers the name that it stands for, and all that begins with its chain. -/
theorem Entry.covers_iff {entry : Entry} {name : String} {path : List String} : entry.Covers name path ↔
    path = [] ∧ entry.name? = some name ∨
      ∃ chain, entry.chain? = some chain ∧ chain.root = name ∧ chain.path <+: path := by
  cases entry with
  | plain other => simp [covers_plain, name?, chain?, and_comm]
  | unrecognized => simp [not_covers_unrecognized, name?, chain?]
  | chain segments =>
    match segments with
    | [] => simp [not_covers_nil, name?, chain?]
    | [root] => simp [covers_chain, name?, chain?, and_comm]
    | root :: first :: rest => simp [covers_chain, name?, chain?]

namespace Options
variable {options other : Options} {source name : String} {path : List String}

/-- Behind every chain stands a shortest one, which allows at least as much. -/
theorem exists_shortest {chain : ChainPattern} (h : (source, chain) ∈ options.collect Entry.chain?) :
    ∃ s, (source, s) ∈ options.shortest ∧ s.root = chain.root ∧ s.path <+: chain.path := by
  induction hn : chain.path.length using Nat.strong_induction_on generalizing chain with
  | _ n ih =>
    by_cases hmin : ∀ y ∈ options.collect Entry.chain?, ¬ (y.1 = source ∧ chain.Extends y.2)
    · exact ⟨chain, Finset.mem_filter.mpr ⟨h, hmin⟩, rfl, List.prefix_rfl⟩
    · push Not at hmin
      obtain ⟨⟨_, shorter⟩, hshorter, rfl, hroot, hpath, hne⟩ := hmin
      have hlt : shorter.path.length < n :=
        hn ▸ lt_of_le_of_ne hpath.length_le fun hlength => hne (hpath.eq_of_length hlength)
      obtain ⟨s, hs, hsroot, hspath⟩ := ih _ hlt hshorter rfl
      exact ⟨s, hs, hsroot.trans hroot, hspath.trans hpath⟩

/-- The entries of a module cover exactly what the meaning of the options allows. -/
theorem covers_iff_meaning :
    (∃ entry, options.Lists source entry ∧ entry.Covers name path) ↔ options.meaning.Allows source name path := by
  simp only [Entry.covers_iff, Meaning.Allows, meaning, mem_collect]
  constructor
  · rintro ⟨entry, hlisted, ⟨hpath, hname⟩ | ⟨chain, hchain, hroot, hbegins⟩⟩
    · exact Or.inl ⟨hpath, entry, hlisted, hname⟩
    · obtain ⟨s, hs, hsroot, hspath⟩ := exists_shortest (mem_collect.mpr ⟨entry, hlisted, hchain⟩)
      exact Or.inr ⟨s, hs, hsroot.trans hroot, hspath.trans hbegins⟩
  · rintro (⟨hpath, entry, hlisted, hname⟩ | ⟨chain, hchain, hroot, hbegins⟩)
    · exact ⟨entry, hlisted, Or.inl ⟨hpath, hname⟩⟩
    · obtain ⟨entry, hlisted, hentry⟩ := mem_collect.mp (Finset.mem_filter.mp hchain).1
      exact ⟨entry, hlisted, Or.inr ⟨chain, hentry, hroot, hbegins⟩⟩

end Options

/-- Patterns are empty exactly if they allow nothing: a name allows itself, and a chain all that begins with it. -/
theorem Patterns.isEmpty_iff {p : Patterns} : p.isEmpty = true ↔ ∀ name path, ¬ p.Allows name path := by
  rw [isEmpty, Bool.and_eq_true, List.isEmpty_iff, List.isEmpty_iff]
  constructor
  · rintro ⟨hplain, hchains⟩ name path
    simp [Allows, hplain, hchains]
  · intro h
    refine ⟨List.eq_nil_iff_forall_not_mem.mpr fun name hname => h name [] ?_,
      List.eq_nil_iff_forall_not_mem.mpr fun chain hchain => h chain.root (chain.path ++ [chain.root]) ?_⟩
    · rwa [Allows, if_pos rfl]
    · rw [Allows, if_neg (by simp)]
      exact ⟨chain, hchain, rfl, List.prefix_append _ _⟩

namespace Whitelist
variable {options other : Options}

/-- Nothing is whitelisted exactly if the meaning allows nothing. -/
theorem isEmpty_iff_meaning :
    (ofOptions options).isEmpty = true ↔ ∀ source name path, ¬ options.meaning.Allows source name path := by
  simp only [← Options.covers_iff_meaning, isEmpty, ofOptions, List.all_eq_true, List.forall_mem_map,
    Patterns.isEmpty_iff, Patterns.allows_ofEntries]
  constructor
  · rintro h _ name path ⟨entry, ⟨m, hm, rfl, hentry⟩, hcovers⟩
    exact h m hm name path ⟨entry, hentry, hcovers⟩
  · rintro h m hm name path ⟨entry, hentry, hcovers⟩
    exact h m.1 name path ⟨entry, ⟨m, hm, rfl, hentry⟩, hcovers⟩

private theorem isEmpty_congr (h : options.meaning = other.meaning) :
    (ofOptions options).isEmpty = (ofOptions other).isEmpty := by
  rw [Bool.eq_iff_iff, isEmpty_iff_meaning, isEmpty_iff_meaning, h]

private theorem isPure_congr (h : options.meaning = other.meaning) :
    isPure (ofOptions options) = isPure (ofOptions other) := by
  funext imports t
  unfold isPure
  split
  next callee _ =>
    rw [Bool.eq_iff_iff]
    simp only [Callee.isAllowed_iff, Options.allows_iff, exists_and_left, Options.covers_iff_meaning, h]
  next => rfl

end Whitelist

namespace Annotator
variable {options other : Options}

private theorem visit_congr (h : options.meaning = other.meaning) :
    visit (.ofOptions options) = visit (.ofOptions other) := by
  funext program a
  unfold visit
  rw [Whitelist.isEmpty_congr h, Whitelist.isPure_congr h]

/-- Options of one meaning make the same run: the same programs and comments step by step, and the same comments and
fresh positions handed on behind any number of programs. -/
theorem only_meaning_matters (options other : Options) (h : options.meaning = other.meaning) (programs : List Tree)
    (a : Annotator) :
    steps (.ofOptions options) programs a = steps (.ofOptions other) programs a ∧
      ∀ n, after (.ofOptions options) (programs.take n) a = after (.ofOptions other) (programs.take n) a := by
  refine ⟨?_, fun n => ?_⟩
  · induction programs generalizing a with
    | nil => rfl
    | cons program rest ih => rw [steps_cons, steps_cons, visit_congr h, ih]
  · rw [after, after, visit_congr h]

theorem only_meaning_matters_chained :
    let options : Options := ⟨[("m", [.plain "f", .chain ["g", "h"]])]⟩
    let other : Options := ⟨[("n", [.unrecognized, .chain []]),
      ("m", [.chain ["g", "h", "k"], .chain ["f"], .chain [], .chain ["g", "h"], .plain "f"])]⟩
    steps (.ofOptions options) [.chained] (start {} .firstFresh) =
        steps (.ofOptions other) [.chained] (start {} .firstFresh) ∧
      (after (.ofOptions other) [.chained] (start {} .firstFresh)).marking.fresh = .firstFresh + 1 := by
  intro options other
  have hmeaning : options.meaning = other.meaning := by decide +kernel
  obtain ⟨hsteps, hafter⟩ := only_meaning_matters options other hmeaning [.chained] (start {} .firstFresh)
  have hfresh : (after (.ofOptions options) [.chained] (start {} .firstFresh)).marking.fresh = .firstFresh + 1 := by
    decide +kernel
  have hsame : after (.ofOptions options) [.chained] (start {} .firstFresh) =
      after (.ofOptions other) [.chained] (start {} .firstFresh) := hafter 1
  exact ⟨hsteps, hsame ▸ hfresh⟩

end Annotator
end PureCalls
