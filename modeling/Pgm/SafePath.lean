import Pgm.Lib.Lexical

/-!
# Which directories are cleared

`prepare_dir` empties the directory of a graph when `safePath` has found that its absolute path
begins with `/dev/shm`, `/home` or `/tmp`. The comparison is made component by component, before
`.` and `..` are resolved, and a path that is one of the three passes as well.
`safePath_confines_iff` says exactly which paths that pass stay inside.
-/

namespace Pgm.SafePath

open Lexical (Move Net)

abbrev Str := List UInt8

def slash : Str := [47]
def dot : Str := [46]
def dotdot : Str := [46, 46]
def dev : Str := [100, 101, 118]
def shm : Str := [115, 104, 109]
def home : Str := [104, 111, 109, 101]
def tmp : Str := [116, 109, 112]

/-- `boost::filesystem::path`, taken apart: the host of a root name like `//host`, whether there is
a root directory, and the file names. A slash at the end counts as a last file name `.`. -/
structure Path where
  host : Option Str
  rootDir : Bool
  names : List Str
  deriving DecidableEq

/-- What the iterator of a path goes through. -/
def Path.elements (p : Path) : List Str :=
  p.host.toList.map (slash ++ slash ++ ·) ++ (if p.rootDir then [slash] else []) ++ p.names

def Path.isRelative (p : Path) : Bool := !p.rootDir

/-- `p /= q` for a relative path `q`: the slashes in front of a root name are separators here. -/
def Path.append (p q : Path) : Path :=
  { p with names := p.names ++ q.host.toList ++ q.names }

/-- `current_path()`, as the file names below the root directory. -/
def currentPath (cwd : List Str) : Path := ⟨none, true, cwd⟩

/-- The file names of the three paths of `allowed`, which all have a root directory. -/
def stems : List (List Str) := [[dev, shm], [home], [tmp]]

def allowed : List Path := stems.map (fun names => ⟨none, true, names⟩)

def absolute (cwd : List Str) (dir : Path) : Path :=
  if dir.isRelative then (currentPath cwd).append dir else dir

/-- `*it`; the end of a path is an empty path. -/
def deref (it : List Str) : Str := it.headD []

/-- The inner loop of `safePath` over `compare` and `toCheck`: whether it ends without counting
a failure. -/
def matchStem : List Str → List Str → Bool
  | [], _ => true
  | c :: compare, toCheck =>
    if c ≠ deref toCheck ∨ toCheck = [] then false else matchStem compare toCheck.tail

def failures (dirAbs : Path) : Nat :=
  allowed.countP (fun stem => !matchStem stem.elements dirAbs.elements)

def safePath (cwd : List Str) (dir : Path) : Int :=
  let dirAbs := absolute cwd dir
  if dirAbs.elements = [] ∨ dirAbs.elements = [slash] then -1
  else if allowed.length = failures dirAbs then -1
  else 0

/-! ## `prepare_dir` -/

/-- What the file system answers in one round of the loop of `prepare_dir`. -/
structure Round where
  created : Bool
  isEmpty : Bool
  removed : Bool

/-- What the file system answers to `prepare_dir`. -/
structure Answers where
  present : Bool
  isDirectory : Bool
  isCurrent : Bool
  /-- The second call of `exists`. -/
  stillPresent : Bool
  rounds : List Round

inductive Effect where
  | createDirectories
  | removeAll
  deriving DecidableEq

/-- The code from the label `create_dir` on, or after it. The result is `none` when the answers
end before the code does. -/
def prepareRounds : Bool → List Round → List Effect × Option Int
  | _, [] => ([], none)
  | create, r :: rounds =>
    let made := if create then [.createDirectories] else []
    if create && !r.created then (made, some (-1))
    else if r.isEmpty then (made, some 0)
    else if !r.removed then (made ++ [.removeAll], some (-1))
    else
      let next := prepareRounds true rounds
      (made ++ .removeAll :: next.1, next.2)

/-- `prepare_dir`: the changes it makes to the directory, and its result. -/
def prepareDir (os : Answers) (cwd : List Str) (dir : Path) : List Effect × Option Int :=
  if safePath cwd dir ≠ 0 then ([], some (-1))
  else if os.present && !os.isDirectory then ([], some (-1))
  else if os.isCurrent then ([], some (-1))
  else prepareRounds (!os.stillPresent) os.rounds

/-- Some answers make `prepare_dir` clear the directory. -/
def Cleared (cwd : List Str) (dir : Path) : Prop :=
  ∃ os, Effect.removeAll ∈ (prepareDir os cwd dir).1

theorem cleared_iff (cwd : List Str) (dir : Path) : Cleared cwd dir ↔ safePath cwd dir = 0 := by
  constructor
  · rintro ⟨os, hmem⟩
    by_contra hne
    rw [prepareDir, if_pos hne] at hmem
    cases hmem
  · intro h
    refine ⟨⟨true, true, false, true, [⟨true, false, true⟩]⟩, ?_⟩
    simp [prepareDir, prepareRounds, h]

/-! ## Inside and outside -/

def kind (c : Str) : Move := if c = dot then .stay else if c = dotdot then .up else .down

/-- The directory that an absolute path names, with `.` and `..` resolved. -/
def resolve (names : List Str) : List Str := Lexical.walk kind [] names

def StrictlyBelow (r : List Str) : Prop := ∃ stem ∈ stems, stem <+: r ∧ stem ≠ r

/-- What follows a stem, once names and the `..` behind them are cancelled, has a name and no `..`;
or its `..` leave the stem and its names lead into one again. -/
def Stays (stem : List Str) (n : Net Str) : Prop :=
  if n.ups = 0 then n.downs ≠ [] else StrictlyBelow (stem.take (stem.length - n.ups) ++ n.downs)

theorem matchStem_iff {stem p : List Str} : matchStem stem p = true ↔ stem <+: p := by
  induction stem generalizing p with
  | nil => simp [matchStem]
  | cons c stem ih =>
    cases p with
    | nil => simp [matchStem]
    | cons d p =>
      simp only [matchStem, deref, List.headD_cons, List.tail_cons, List.cons_prefix_cons]
      by_cases hc : c = d
      · simp [hc, ih]
      · simp [hc]

theorem stem_kind {stem : List Str} (h : stem ∈ stems) : ∀ c ∈ stem, kind c = .down := by
  revert stem
  decide

theorem not_strictlyBelow_stem {stem : List Str} (h : stem ∈ stems) : ¬ StrictlyBelow stem := by
  have hall : ∀ a ∈ stems, ∀ b ∈ stems, ¬ (b <+: a ∧ b ≠ a) := by decide
  rintro ⟨b, hb, hpre, hne⟩
  exact hall stem h b hb ⟨hpre, hne⟩

theorem absolute_rootDir (cwd : List Str) (dir : Path) : (absolute cwd dir).rootDir = true := by
  unfold absolute Path.isRelative
  cases h : dir.rootDir <;> simp [h, Path.append, currentPath]

/-- An absolute path begins with a stem when it names no host and its file names do. -/
theorem stem_elements {p : Path} (hp : p.rootDir = true) (stem : List Str) :
    (⟨none, true, stem⟩ : Path).elements <+: p.elements ↔ p.host = none ∧ stem <+: p.names := by
  cases hh : p.host with
  | none => simp [Path.elements, hp, hh]
  | some host => simp [Path.elements, hp, hh, slash]

theorem safePath_eq_zero_iff (cwd : List Str) (dir : Path) : safePath cwd dir = 0 ↔
    (absolute cwd dir).host = none ∧ ∃ stem ∈ stems, stem <+: (absolute cwd dir).names := by
  have hroot := absolute_rootDir cwd dir
  have hfail : allowed.length = failures (absolute cwd dir) ↔
      ∀ stem ∈ stems, ¬ (⟨none, true, stem⟩ : Path).elements <+: (absolute cwd dir).elements := by
    rw [eq_comm, failures, List.countP_eq_length, allowed, List.forall_mem_map]
    simp only [Bool.not_eq_true', ← Bool.not_eq_true, matchStem_iff]
  have hsafe : (∃ stem ∈ stems, (⟨none, true, stem⟩ : Path).elements <+: (absolute cwd dir).elements) ↔
      (absolute cwd dir).host = none ∧ ∃ stem ∈ stems, stem <+: (absolute cwd dir).names := by
    simp only [stem_elements hroot]
    constructor
    · rintro ⟨stem, hs, hh, hpre⟩
      exact ⟨hh, stem, hs, hpre⟩
    · rintro ⟨hh, stem, hs, hpre⟩
      exact ⟨stem, hs, hh, hpre⟩
  rw [← hsafe]
  unfold safePath
  simp only
  split
  · -- the root directory alone begins with no stem
    rename_i hshort
    refine iff_of_false (by decide) ?_
    rintro ⟨stem, hs, hpre⟩
    have hlen : ∀ stem ∈ stems, 2 ≤ (⟨none, true, stem⟩ : Path).elements.length := by decide
    have hle := Nat.le_trans (hlen stem hs) hpre.length_le
    rcases hshort with he | he <;> rw [he] at hle <;> simp at hle
  · split
    · rename_i hall
      refine iff_of_false (by decide) ?_
      rintro ⟨stem, hs, hpre⟩
      exact hfail.mp hall stem hs hpre
    · rename_i hall
      refine iff_of_true rfl ?_
      by_contra hno
      exact hall (hfail.mpr (fun stem hs hpre => hno ⟨stem, hs, hpre⟩))

theorem resolve_stem {stem : List Str} (h : stem ∈ stems) (rest : List Str) :
    resolve (stem ++ rest) = (Lexical.net kind rest).apply stem := by
  rw [resolve, Lexical.walk_append, Lexical.walk_downs (stem_kind h), List.nil_append,
    Lexical.walk_eq]

theorem strictlyBelow_resolve_iff {stem : List Str} (h : stem ∈ stems) (rest : List Str) :
    StrictlyBelow (resolve (stem ++ rest)) ↔ Stays stem (Lexical.net kind rest) := by
  rw [resolve_stem h, Stays]
  split
  · rename_i hz
    rw [Net.apply, hz, Nat.sub_zero, List.take_length]
    constructor
    · intro hb hnil
      rw [hnil, List.append_nil] at hb
      exact not_strictlyBelow_stem h hb
    · intro hne
      exact ⟨stem, h, List.prefix_append _ _, fun he => hne (by simpa using he)⟩
  · rfl

/-- **Which directories are cleared.** `prepare_dir` can clear a directory exactly when `safePath`
accepts it; and a directory that is accepted lies strictly below one of the three exactly when
what follows the stem stays inside, or leaves it and leads into one again. -/
theorem safePath_confines_iff (cwd : List Str) (dir : Path) :
    (Cleared cwd dir ↔ safePath cwd dir = 0) ∧
    ((safePath cwd dir = 0 → StrictlyBelow (resolve (absolute cwd dir).names)) ↔
      ((absolute cwd dir).host = none → ∀ stem ∈ stems, ∀ rest,
        (absolute cwd dir).names = stem ++ rest → Stays stem (Lexical.net kind rest))) := by
  refine ⟨cleared_iff cwd dir, ?_⟩
  rw [safePath_eq_zero_iff]
  constructor
  · intro h hhost stem hs rest hn
    rw [← strictlyBelow_resolve_iff hs, ← hn]
    exact h ⟨hhost, stem, hs, rest, hn.symm⟩
  · rintro h ⟨hhost, stem, hs, rest, hn⟩
    rw [← hn, strictlyBelow_resolve_iff hs]
    exact h hhost stem hs rest hn.symm

def tmpUpEtc : Path := ⟨none, true, [tmp, dotdot, [101, 116, 99]]⟩

instance (r : List Str) : Decidable (StrictlyBelow r) :=
  inferInstanceAs (Decidable (∃ stem ∈ stems, stem <+: r ∧ stem ≠ r))

/-- `/tmp/../etc` is accepted and names `/etc`; `/tmp` is accepted itself. -/
theorem accepted_outside : safePath [] tmpUpEtc = 0 ∧
    resolve (absolute [] tmpUpEtc).names = [[101, 116, 99]] ∧
    ¬ StrictlyBelow (resolve (absolute [] tmpUpEtc).names) ∧
    safePath [] ⟨none, true, [tmp]⟩ = 0 ∧
    ¬ StrictlyBelow (resolve (absolute [] ⟨none, true, [tmp]⟩).names) := by decide

end Pgm.SafePath
