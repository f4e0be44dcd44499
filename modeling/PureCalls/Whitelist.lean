import PureCalls.Options

/-! The whitelist of a set of options: the names and chains of each module whose calls count as pure. -/
namespace PureCalls

/-- A chain of members. An export has this name, and `path` leads from it to what is called. -/
structure ChainPattern where
  root : String
  path : List String
  deriving DecidableEq, Repr, Inhabited

/-- What may be called of one module: exports themselves, and members of exports. -/
structure Patterns where
  plain : List String := []
  chains : List ChainPattern := []
  deriving DecidableEq, Repr, Inhabited

namespace Patterns

def isEmpty (p : Patterns) : Bool :=
  p.plain.isEmpty && p.chains.isEmpty

/-- Sorts an entry in. A chain of one name is that name, and a chain without names says nothing. -/
def add (p : Patterns) : Entry → Patterns
  | .plain name => { p with plain := p.plain ++ [name] }
  | .chain [] => p
  | .chain [name] => { p with plain := p.plain ++ [name] }
  | .chain (root :: path) => { p with chains := p.chains ++ [⟨root, path⟩] }
  | .unrecognized => p

def ofEntries (entries : List Entry) : Patterns :=
  entries.foldl add {}

end Patterns

/-- The patterns of each module, in the order of the options. -/
structure Whitelist where
  modules : List (String × Patterns)
  deriving DecidableEq, Repr, Inhabited

namespace Whitelist

def ofOptions (options : Options) : Whitelist :=
  ⟨options.modules.map fun m => (m.1, Patterns.ofEntries m.2)⟩

/-- Whether nothing is whitelisted at all. -/
def isEmpty (w : Whitelist) : Bool :=
  w.modules.all fun m => m.2.isEmpty

end Whitelist
end PureCalls
