import Rs5cmd.Storage.Fs

/-!
# Include and exclude filters (`command/filters.rs`)

Patterns are compiled once into anchored regexes and matched against an
object's relative path.
-/

namespace Rs5cmd

structure Filters where
  includes : List Regex
  excludes : List Regex

/-- `compile_globs`. -/
def compileGlobs : List Str → Except Str (List Regex)
  | [] => .ok []
  | p :: ps =>
    match Regex.new (addNewlineFlag (matchFromStartToEnd (wildcardToRegexp p))) with
    | .error e => .error e
    | .ok re => (compileGlobs ps).map (re :: ·)

namespace Filters

/-- `Filters::new`. -/
def new (includes excludes : List Str) : Except Str Filters :=
  match compileGlobs includes, compileGlobs excludes with
  | .ok i, .ok e => .ok ⟨i, e⟩
  | .error e, _ => .error e
  | _, .error e => .error e

/-- Whether an object with the given relative key should be skipped: excluded
patterns win, and with includes present one of them has to match. -/
def shouldSkip (f : Filters) (key : Str) : Bool :=
  f.excludes.any (·.isMatch key) || (!f.includes.isEmpty && !f.includes.any (·.isMatch key))

end Filters

/-- No patterns at all. -/
def noFilters : Filters := ⟨[], []⟩

/-- `filter_key`; the path separator is `/` already. -/
def filterKey (u : Url) : Str := u.relative

end Rs5cmd
