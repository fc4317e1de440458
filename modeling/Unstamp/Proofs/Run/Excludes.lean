import Unstamp.Proofs.Run.Check
import Unstamp.Proofs.Walk.Pruning

namespace Unstamp

namespace Run
open Unstamp.Walk
variable {lib : PatternLibrary} {hits : Text → Text → Bool} {walk : Walker} {cfg : Config}
  {isExcluded : Text → Bool} {es : List Text} {out : Option Place} {cwd root p : Place}
  {t : FileTree} {names : List Name}

def spelled (names : List Name) : Text :=
  Path.slashed (joinWith Path.slash names)

/-- The files that a walk hands to a run below a root, in a tree that stays as it is. -/
def handed (walk : Walker) (cfg : Config) (isExcluded : Text → Bool) (out : Option Place)
    (root : Place) (t : FileTree) : List Place :=
  files ((walk (walkOptions cfg isExcluded out root) root t).still t)

/-- What stands at some names below a root is taken out neither by itself nor with a directory on
the way to it. -/
def Spared (excluded : Text → Prop) (names : List Name) : Prop :=
  (names ≠ [] → ¬ excluded (spelled names)) ∧
    ∀ q, q ≠ [] → q <+: names → q ≠ names → ¬ excluded (spelled q) ∧
      ((spelled q).getLast? ≠ some '/' → ¬ excluded (spelled q ++ ['/']))

theorem Spared.mono {excluded more : Text → Prop} (h : ∀ path, excluded path → more path)
    (hs : Spared more names) : Spared excluded names :=
  ⟨fun hn he => hs.1 hn (h _ he), fun q hq hp hproper =>
    ⟨fun he => (hs.2 q hq hp hproper).1 (h _ he),
      fun hl he => (hs.2 q hq hp hproper).2 hl (h _ he)⟩⟩

end Run
end Unstamp
