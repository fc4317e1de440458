import Unstamp.Proofs.FileTree.Beside
import Unstamp.Proofs.Path.FileName
import Unstamp.Proofs.Run.Course
import Unstamp.Proofs.Run.Outlet

namespace Unstamp.Run
open Unstamp.Path FileTree
variable {cfg : Config} {out root p q d : Place} {s s' : State} {t u base : FileTree} {data : Bytes}
  {vs : List Visit} {n : Name}

/-- A place from which a run takes a file: below the root and outside of the output directory, where
a file stood from the start. -/
structure Source (base : FileTree) (out root p : Place) : Prop where
  below : root <+: p
  outside : ¬ out <+: p
  file : ∃ data, base.get? p = some (.file data)

/-- The state of a run into an output directory: nothing is new but in the directory, and the new
files there have names for which there is a cleaner. -/
structure Running (cfg : Config) (base : FileTree) (out : Place) (s : State) : Prop where
  wellFormed : s.tree.WellFormed
  outlet : s.tree.Outlet out
  beside : Beside out base s.tree
  kept : base.Kept s.tree
  spared : ∀ p n data, p.getLast? = some n →
    Selection.forName? cfg.charset cfg.policy n = none →
      s.tree.get? p = some (.file data) → base.get? p = some (.file data)

theorem Running.outside (hs : Running cfg base out s) (hp : ¬ out <+: p) :
    s.tree.get? p = base.get? p :=
  hs.beside p fun h => absurd h hp

def destination (out root p : Place) : Place :=
  out ++ namesBelow root p

private theorem namesBelow_subset (root p : Place) : ∀ n ∈ namesBelow root p, n ∈ p := by
  intro n hn
  rw [namesBelow] at hn
  split at hn
  · exact List.mem_of_getLast? (Option.mem_toList.mp hn)
  · exact List.mem_of_mem_drop hn

private theorem namesBelow_ne_nil (hb : root <+: p) (hp : p ≠ []) : namesBelow root p ≠ [] := by
  rw [namesBelow]
  split
  · rw [List.getLast?_eq_some_getLast hp]
    exact List.cons_ne_nil _ _
  · rename_i hne
    obtain ⟨q, rfl⟩ := hb
    rw [List.drop_left]
    rintro rfl
    exact hne (List.append_nil root)

private theorem getLast?_namesBelow (hb : root <+: p) :
    (namesBelow root p).getLast? = p.getLast? := by
  rw [namesBelow]
  split
  · cases p.getLast? <;> rfl
  · rename_i hne
    obtain ⟨q, rfl⟩ := hb
    have hq : q ≠ [] := by
      rintro rfl
      exact hne (List.append_nil root)
    rw [List.drop_left, List.getLast?_append, List.getLast?_eq_some_getLast hq, Option.some_or]

/-- The cleaner for a file is told by its last name. -/
private theorem cleanerFor?_place (hp : ∀ m ∈ p, IsName m) (hn : p.getLast? = some n) :
    Selection.cleanerFor? cfg.charset cfg.policy p.path =
      Selection.forName? cfg.charset cfg.policy n := by
  obtain ⟨q, rfl⟩ := List.getLast?_eq_some_iff.mp hn
  rw [Selection.cleanerFor?, fileName?_path_concat (hp n (by simp)), Option.bind_some]

theorem Source.ne_nil (h : Source base out root p) : p ≠ [] := by
  rintro rfl
  obtain ⟨data, hd⟩ := h.file
  cases hd

private theorem Source.destination_ne_nil (h : Source base out root p) : destination out root p ≠
    [] :=
  fun he => namesBelow_ne_nil h.below h.ne_nil (List.append_eq_nil_iff.mp he).2

namespace Running
variable (hs : Running cfg base out s) (hp : Source base out root p)
include hs hp

theorem file : ∃ data, s.tree.get? p = some (.file data) := by
  obtain ⟨data, hd⟩ := hp.file
  exact ⟨data, (hs.outside hp.outside).trans hd⟩

theorem isName_destination : ∀ n ∈ destination out root p, IsName n := by
  intro n hn
  rcases List.mem_append.mp hn with hn | hn
  · exact hs.outlet.isName hs.wellFormed n hn
  · obtain ⟨data, hd⟩ := hs.file hp
    exact hs.wellFormed.name hd n (namesBelow_subset root p n hn)

end Running

/-- Output put below the directory, under a name for which there is a cleaner. -/
theorem Running.placed (hs : Running cfg base out s) {names : List Name} (hne : names ≠ [])
    {output : Option Bytes} (hu : u.WellFormed)
    (ho : s.tree.Overlaid (placing? s.tree (out ++ names) output) u)
    (hclean : output ≠ none → ∀ n, names.getLast? = some n →
      Selection.forName? cfg.charset cfg.policy n ≠ none) (claimed : List (Place × Text)) :
    Running cfg base out ⟨u, claimed⟩ := by
  have hbeside : Beside out s.tree u := fun q hq => by
    rw [ho.get?, hs.outlet.placing?_eq_none hs.wellFormed hne _ hq, Option.none_or]
  refine ⟨hu, ⟨?_, ?_⟩, hs.beside.trans hbeside, hs.kept.trans (kept_of_placing hs.outlet ho), ?_⟩
  · rw [Holds, isDir, hbeside out fun _ => rfl]
    exact hs.outlet.holds
  · intro q target hq
    rw [ho.get?] at hq
    rcases Option.or_eq_some_iff.mp hq with hq | ⟨-, hq⟩
    · exact placing?_ne_link _ _ _ _ hq
    · exact hs.outlet.unlinked q target hq
  · intro q n data hn hnone hq
    rw [ho.get?] at hq
    rcases Option.or_eq_some_iff.mp hq with hq | ⟨-, hq⟩
    · obtain ⟨rfl, rfl⟩ := eq_of_placing?_file hq
      rw [List.getLast?_append, List.getLast?_eq_some_getLast hne, Option.some_or,
        ← List.getLast?_eq_some_getLast hne] at hn
      exact absurd hnone (hclean (Option.some_ne_none _) n hn)
    · exact hs.spared q n data hn hnone hq

inductive Comes (cfg : Config) (out root : Place) (s : State) (p : Place) (data : Bytes) :
    State × List Event → Prop
  /-- No cleaner is for the file. -/
  | passed (hc : Selection.cleanerFor? cfg.charset cfg.policy p.path = none) :
      Comes cfg out root s p data (s, [])
  /-- Another file has the output. -/
  | clashed {c : Cleaner} {first : Text}
      (hc : Selection.cleanerFor? cfg.charset cfg.policy p.path = some c)
      (hl : s.claimed.lookup (destination out root p) = some first) :
      Comes cfg out root s p data
        (s, [.notice (.clash (Path.display root.path p.path)
          (Place.path (destination out root p)) first)])
  /-- The output is claimed, but the file could not be read, cleaned or put there. -/
  | failed {c : Cleaner} {u : FileTree} {fault : FileFault}
      (hc : Selection.cleanerFor? cfg.charset cfg.policy p.path = some c)
      (hl : s.claimed.lookup (destination out root p) = none) (hu : u.WellFormed)
      (ho : s.tree.Overlaid (placing? s.tree (destination out root p) (yield? c p data)) u) :
      Comes cfg out root s p data
        (⟨u, (destination out root p, Path.display root.path p.path) :: s.claimed⟩,
          [.notice (.notCleaned (Path.display root.path p.path) fault)])
  /-- The output is claimed and stands where it belongs. -/
  | put {c : Cleaner} {u : FileTree} {outcome : Outcome} {after : Bytes}
      (hc : Selection.cleanerFor? cfg.charset cfg.policy p.path = some c)
      (hl : s.claimed.lookup (destination out root p) = none) (hu : u.WellFormed)
      (ho : s.tree.Overlaid (placing? s.tree (destination out root p) (yield? c p data)) u)
      (hb : c.cleanBytes data = .ok (outcome, after))
      (hd : u.get? (destination out root p) = some (.file after)) :
      Comes cfg out root s p data
        (⟨u, (destination out root p, Path.display root.path p.path) :: s.claimed⟩,
          reportEvents (Path.display root.path p.path) c ⟨data, after, outcome⟩)

theorem visitFile_comes (hc : cfg.check = false) (hs : Running cfg base out s)
    (hp : Source base out root p) (hd : s.tree.get? p = some (.file data)) :
    Comes cfg out root s p data (visitFile cfg (some out) root s p) := by
  rw [visitFile, hc]
  cases hsel : Selection.cleanerFor? cfg.charset cfg.policy p.path with
  | none => exact .passed hsel
  | some c =>
    simp only
    cases hl : s.claimed.lookup (out ++ namesBelow root p) with
    | some first => exact .clashed hsel hl
    | none =>
      obtain ⟨u, es, hdone, hu, ho, hes⟩ := cleanFile_output hs.wellFormed hd
        (hs.isName_destination hp) (hs.outlet.unlinked_append hs.wellFormed (namesBelow root p))
        hp.destination_ne_nil c (Path.display root.path p.path)
      rw [destination] at hdone
      simp only [hdone]
      rcases hes with ⟨fault, rfl⟩ | ⟨outcome, after, hb, hput, rfl⟩
      · exact .failed hsel hl hu ho
      · exact .put hsel hl hu ho hb hput

/-- What a visit of a file comes to when its output can be put. -/
theorem visitFile_of_put (hc : cfg.check = false) (ht : s.tree.WellFormed) {c : Cleaner}
    {outcome : Outcome} {after : Bytes}
    (hsel : Selection.cleanerFor? cfg.charset cfg.policy p.path = some c)
    (hl : s.claimed.lookup (destination out root p) = none)
    (hd : s.tree.get? p = some (.file data)) (hlen : p.path.length ≤ maxPath)
    (hb : c.cleanBytes data = .ok (outcome, after))
    (hput : put false s.tree p (some (destination out root p)) ⟨data, after, outcome⟩ =
      (.ok (), u)) :
    visitFile cfg (some out) root s p =
      (⟨u, (destination out root p, Path.display root.path p.path) :: s.claimed⟩,
        reportEvents (Path.display root.path p.path) c ⟨data, after, outcome⟩) := by
  have hload : c.load s.tree [] p.path = .ok ⟨data, after, outcome⟩ := by
    rw [Cleaner.load_path ht hd, if_neg (Nat.not_lt.mpr hlen), hb]
  rw [destination] at hl hput ⊢
  rw [visitFile, hsel, hc]
  simp only [hl, cleanFile, hload, hput]

/-- What a visit has to put at its output: nothing, if there is no cleaner for the file, if another
file has the output, or if the file could not be read or cleaned. -/
def offer? (cfg : Config) (out root : Place) (s : State) (p : Place) (data : Bytes) :
    Option Bytes :=
  match Selection.cleanerFor? cfg.charset cfg.policy p.path,
    s.claimed.lookup (destination out root p) with
  | some c, none => yield? c p data
  | _, _ => none

def claim? (cfg : Config) (out root p d : Place) : Option Text :=
  if (Selection.cleanerFor? cfg.charset cfg.policy p.path).isSome ∧ d = destination out root p
  then some (Path.display root.path p.path)
  else none

namespace Comes
variable {done : State × List Event}

theorem wellFormed (h : Comes cfg out root s p data done) (hs : s.tree.WellFormed) :
    done.1.tree.WellFormed := by
  cases h with
  | passed | clashed => exact hs
  | failed _ _ hu | put _ _ hu => exact hu

theorem overlaid (h : Comes cfg out root s p data done) :
    s.tree.Overlaid (placing? s.tree (destination out root p) (offer? cfg out root s p data))
      done.1.tree := by
  cases h with
  | passed hc =>
    simp only [offer?, hc]
    exact .refl s.tree
  | clashed hc hl =>
    simp only [offer?, hc, hl]
    exact .refl s.tree
  | failed hc hl _ ho | put hc hl _ ho =>
    simp only [offer?, hc, hl]
    exact ho

/-- A claim is made once, and it stands. -/
theorem lookup (h : Comes cfg out root s p data done) (d : Place) :
    done.1.claimed.lookup d = (s.claimed.lookup d).or (claim? cfg out root p d) := by
  rw [claim?]
  cases h with
  | passed hc =>
    simp only [hc, Option.isSome_none, Bool.false_eq_true, false_and, if_false, Option.or_none]
  | clashed hc hl =>
    by_cases hd : d = destination out root p
    · rw [hd, hl, Option.some_or]
    · rw [if_neg fun h => hd h.2, Option.or_none]
  | failed hc hl | put hc hl =>
    by_cases hd : d = destination out root p
    · rw [hd, hl, hc, if_pos ⟨rfl, rfl⟩, List.lookup_cons_self]
      rfl
    · rw [if_neg fun h => hd h.2, Option.or_none, List.lookup_cons, beq_eq_false_iff_ne.mpr hd]

/-- A file that stands at an output is changed by no visit but the first that claims it. -/
theorem keeps (h : Comes cfg out root s p data done) {after : Bytes}
    (hd : s.tree.get? d = some (.file after)) (hl : (s.claimed.lookup d).isSome) :
    done.1.tree.get? d = some (.file after) := by
  rw [h.overlaid.get?, offer?]
  by_cases hde : d = destination out root p
  · obtain ⟨first, hl⟩ := Option.isSome_iff_exists.mp hl
    rw [← hde, hl]
    cases Selection.cleanerFor? cfg.charset cfg.policy p.path <;> exact hd
  · rw [placing?_of_some _ _ hde (by rw [hd]; nofun), Option.none_or, hd]

end Comes

/-- Whatever a visit reads, it puts one output at most, and this for a cleaner. -/
private theorem visitFile_placing (hc : cfg.check = false) (hs : Running cfg base out s)
    (hn : ∀ n ∈ namesBelow root p, IsName n) (hne : namesBelow root p ≠ []) :
    ∃ output, s.tree.Overlaid (placing? s.tree (out ++ namesBelow root p) output)
        (visitFile cfg (some out) root s p).1.tree ∧
      (visitFile cfg (some out) root s p).1.tree.WellFormed ∧
      (output ≠ none → Selection.cleanerFor? cfg.charset cfg.policy p.path ≠ none) := by
  have hsame : ∃ output, s.tree.Overlaid (placing? s.tree (out ++ namesBelow root p) output)
      s.tree ∧ s.tree.WellFormed ∧
        (output ≠ none → Selection.cleanerFor? cfg.charset cfg.policy p.path ≠ none) :=
    ⟨none, .refl s.tree, hs.wellFormed, fun h => absurd rfl h⟩
  rw [visitFile, hc]
  cases hsel : Selection.cleanerFor? cfg.charset cfg.policy p.path with
  | none =>
    rw [hsel] at hsame
    exact hsame
  | some c =>
    rw [hsel] at hsame
    simp only
    cases s.claimed.lookup (out ++ namesBelow root p) with
    | some first => exact hsame
    | none =>
      simp only [cleanFile]
      cases c.load s.tree [] p.path with
      | error fault => exact hsame
      | ok cleaned =>
        have hname : ∀ n ∈ out ++ namesBelow root p, IsName n :=
          List.forall_mem_append.mpr ⟨hs.outlet.isName hs.wellFormed, hn⟩
        have hd : out ++ namesBelow root p ≠ [] := List.append_ne_nil_of_right_ne_nil out hne
        obtain ⟨r, u, hput, hu, ho, -⟩ := put_output hs.wellFormed hname
          (hs.outlet.unlinked_append hs.wellFormed _) hd p cleaned
        simp only [hput]
        refine ⟨some cleaned.after, ?_⟩
        cases r <;> exact ⟨ho, hu, fun _ => Option.some_ne_none c⟩

/-- A visit touches nothing but its output, wherever the file stands that it reads. -/
theorem visitFile_frame (hc : cfg.check = false) (hs : Running cfg base out s) (hb : root <+: p)
    (hp : ∀ n ∈ p, IsName n) (hne : p ≠ []) :
    Running cfg base out (visitFile cfg (some out) root s p).1 ∧
      s.tree.Kept (visitFile cfg (some out) root s p).1.tree := by
  obtain ⟨output, ho, hu, hclean⟩ := visitFile_placing hc hs
    (fun n hn => hp n (namesBelow_subset root p n hn)) (namesBelow_ne_nil hb hne)
  refine ⟨hs.placed (namesBelow_ne_nil hb hne) hu ho (fun hoffer n hn hnone => ?_) _,
    kept_of_placing hs.outlet ho⟩
  rw [getLast?_namesBelow hb] at hn
  exact hclean hoffer ((cleanerFor?_place hp hn).trans hnone)

theorem visitFile_running (hc : cfg.check = false) (hs : Running cfg base out s)
    (hp : Source base out root p) : Running cfg base out (visitFile cfg (some out) root s p).1 := by
  obtain ⟨_, hfile⟩ := hs.file hp
  exact (visitFile_frame hc hs hp.below (hs.wellFormed.name hfile) hp.ne_nil).1

inductive Chain (cfg : Config) (out : Option Place) : State → List Stop → State → Prop
  | nil (s : State) : Chain cfg out s [] s
  | cons {a : Stop} {as : List Stop} {s' : State} (h : Chain cfg out (a.effect cfg out).1 as s') :
      Chain cfg out a.state (a :: as) s'

namespace Chain
variable {out? : Option Place} {as bs : List Stop} {m : State} {a : Stop}

theorem append (h : Chain cfg out? s as m) (h' : Chain cfg out? m bs s') :
    Chain cfg out? s (as ++ bs) s' := by
  induction h with
  | nil => exact h'
  | cons _ ih => exact .cons (ih h')

theorem split (h : Chain cfg out? s (as ++ a :: bs) s') :
    Chain cfg out? s as a.state ∧ Chain cfg out? (a.effect cfg out?).1 bs s' := by
  induction as generalizing s with
  | nil =>
    cases h with
    | cons h => exact ⟨.nil _, h⟩
  | cons b as ih =>
    cases h with
    | cons h =>
      obtain ⟨hl, hr⟩ := ih h
      exact ⟨.cons hl, hr⟩

theorem stops (cfg : Config) (out? : Option Place) (root : Place) (s : State) (vs : List Visit) :
    Chain cfg out? s (Run.stops cfg out? root s vs) (visitAll cfg out? root s vs).1 := by
  induction vs generalizing s with
  | nil => exact .nil s
  | cons v vs ih =>
    cases v with
    | fault fault => exact ih s
    | file p => exact .cons (a := ⟨root, p, s⟩) (ih _)

theorem rounds (walk : Walker) (cfg : Config) (isExcluded : Text → Bool) (out? : Option Place)
    (cwd : Place) (s : State) (rs : List Path) :
    Chain cfg out? s ((Run.rounds walk cfg isExcluded out? cwd s rs).flatMap (Round.stops cfg out?))
      (sweep walk cfg isExcluded out? cwd s rs).1 := by
  induction rs generalizing s with
  | nil => exact .nil s
  | cons r rs ih =>
    rw [sweep]
    cases hr : s.tree.resolve cwd r with
    | error fault =>
      rw [visitRoot_of_error hr, rounds_of_error hr]
      exact ih s
    | ok place =>
      rw [visitRoot_of_ok hr, rounds_of_ok hr, List.flatMap_cons]
      exact (stops cfg out? place s _).append (ih _)

end Chain

section
variable {as : List Stop}

/-- A run into an output directory stays one at each of its stops. -/
theorem Chain.running (h : Chain cfg (some out) s as s') (hc : cfg.check = false)
    (hs : Running cfg base out s) (hp : ∀ a ∈ as, Source base out a.root a.place) :
    Running cfg base out s' ∧ ∀ a ∈ as, Running cfg base out a.state := by
  induction h with
  | nil => exact ⟨hs, nofun⟩
  | cons _ ih =>
    obtain ⟨ha, has⟩ := List.forall_mem_cons.mp hp
    obtain ⟨hend, hall⟩ := ih (visitFile_running hc hs ha) has
    exact ⟨hend, List.forall_mem_cons.mpr ⟨hs, hall⟩⟩

/-- An output is claimed by the first file that asks for it. -/
theorem Chain.lookup (h : Chain cfg (some out) s as s') (hc : cfg.check = false)
    (hs : Running cfg base out s) (hp : ∀ a ∈ as, Source base out a.root a.place) (d : Place) :
    s'.claimed.lookup d =
      (s.claimed.lookup d).or (as.findSome? fun a => claim? cfg out a.root a.place d) := by
  induction h with
  | nil => exact Option.or_none.symm
  | @cons a as _ _ ih =>
    obtain ⟨ha, has⟩ := List.forall_mem_cons.mp hp
    obtain ⟨data, hd⟩ := hs.file ha
    have hnow : ((a.effect cfg (some out)).1.claimed.lookup d) =
        (a.state.claimed.lookup d).or (claim? cfg out a.root a.place d) :=
      (visitFile_comes hc hs ha hd).lookup d
    rw [ih (visitFile_running hc hs ha) has, hnow, List.findSome?_cons, Option.or_assoc]
    cases claim? cfg out a.root a.place d <;> rfl

theorem Chain.keeps (h : Chain cfg (some out) s as s') (hc : cfg.check = false)
    (hs : Running cfg base out s) (hp : ∀ a ∈ as, Source base out a.root a.place) {after : Bytes}
    (hd : s.tree.get? d = some (.file after)) (hl : (s.claimed.lookup d).isSome) :
    s'.tree.get? d = some (.file after) := by
  induction h with
  | nil => exact hd
  | cons _ ih =>
    obtain ⟨ha, has⟩ := List.forall_mem_cons.mp hp
    obtain ⟨data, hdata⟩ := hs.file ha
    have hnow := visitFile_comes hc hs ha hdata
    refine ih (visitFile_running hc hs ha) has (hnow.keeps hd hl) ?_
    rw [Stop.effect, hnow.lookup, Option.isSome_or, hl, Bool.true_or]

end

end Unstamp.Run
