import RpcBindings.Proofs.PathBound

/-! # Depth-first traversals

A traversal of paths goes from a path into the paths behind it before it goes on.  A path is
opened when it is met for the first time and closed when everything behind it has been seen to;
a path with the components of one that has been opened is passed over, whether that one is
closed or not.  `DepthFirst` is this as a relation, for any edges between paths.  It knows
nothing of loading: neither that files can fail nor that a bound is counted down.

There is at most one traversal (`DepthFirst.unique`), and there is one as long as only paths
that can be read have edges, for there is no room for infinitely many (`exists_depthFirst`).
-/
namespace RpcBindings.Schema

open RpcBindings.Disk

/-- A visit of the paths `todo` in order, when the paths `seen` have been opened.  At its end
`seen'` have been opened, in the order of opening, and during the visit `closed` have been
closed, in the order of closing. -/
inductive DepthFirst (edges : Path → List Path) :
    (seen todo seen' closed : List Path) → Prop
  | done {seen : List Path} : DepthFirst edges seen [] seen []
  | passed {seen rest seen' closed : List Path} {path : Path} : ¬ Fresh seen path →
      DepthFirst edges seen rest seen' closed → DepthFirst edges seen (path :: rest) seen' closed
  | entered {seen rest between seen' inner outer : List Path} {path : Path} : Fresh seen path →
      DepthFirst edges (seen ++ [path]) (edges path) between inner →
      DepthFirst edges between rest seen' outer →
      DepthFirst edges seen (path :: rest) seen' (inner ++ path :: outer)

namespace DepthFirst
variable {edges : Path → List Path} {seen todo seen' closed : List Path}

/-- **A traversal is determined by where it starts.** -/
theorem unique {seen'' closed' : List Path} (h : DepthFirst edges seen todo seen' closed)
    (h' : DepthFirst edges seen todo seen'' closed') : seen'' = seen' ∧ closed' = closed := by
  induction h generalizing seen'' closed' with
  | done =>
    cases h'
    exact ⟨rfl, rfl⟩
  | passed hknown _ ih =>
    cases h' with
    | passed _ hrest => exact ih hrest
    | entered hnew _ _ => exact absurd hnew hknown
  | entered hnew _ _ ihInner ihOuter =>
    cases h' with
    | passed hknown _ => exact absurd hnew hknown
    | entered _ hinner houter =>
      obtain ⟨rfl, rfl⟩ := ihInner hinner
      obtain ⟨rfl, rfl⟩ := ihOuter houter
      exact ⟨rfl, rfl⟩

/-- What has been opened stays in front. -/
theorem seen_prefix (h : DepthFirst edges seen todo seen' closed) : seen <+: seen' := by
  induction h with
  | done => exact List.prefix_refl _
  | passed _ _ ih => exact ih
  | entered _ _ _ ihInner ihOuter =>
    exact ((List.prefix_append _ _).trans ihInner).trans ihOuter

/-- No two paths that are opened have the same components. -/
theorem distinct (h : DepthFirst edges seen todo seen' closed) (hseen : seen.Pairwise Differ) :
    seen'.Pairwise Differ := by
  induction h with
  | done => exact hseen
  | passed _ _ ih => exact ih hseen
  | entered hnew _ _ ihInner ihOuter =>
    refine ihOuter (ihInner (List.pairwise_append.mpr ⟨hseen, List.pairwise_singleton _ _, ?_⟩))
    intro p hp q hq
    rw [List.mem_singleton.mp hq]
    exact hnew p hp

/-- A visit closes what it opens. -/
theorem perm (h : DepthFirst edges seen todo seen' closed) : seen'.Perm (seen ++ closed) := by
  induction h with
  | done => rw [List.append_nil]
  | passed _ _ ih => exact ih
  | @entered seen rest between seen' inner outer path _ _ _ ihInner ihOuter =>
    calc seen'
      _ |>.Perm (between ++ outer) := ihOuter
      _ |>.Perm (seen ++ [path] ++ inner ++ outer) := ihInner.append_right outer
      _ = seen ++ (path :: (inner ++ outer)) := by simp
      _ |>.Perm (seen ++ (inner ++ path :: outer)) := List.perm_middle.symm.append_left seen

/-- A traversal opens the entry before anything else. -/
theorem head?_eq {entry : Path} (h : DepthFirst edges [] [entry] seen' closed) :
    seen'.head? = some entry := by
  cases h with
  | passed hknown _ => exact absurd (fun _ hp => absurd hp List.not_mem_nil) hknown
  | entered _ hinner houter =>
    obtain ⟨more, hmore⟩ := hinner.seen_prefix.trans houter.seen_prefix
    rw [← hmore]
    rfl

end DepthFirst

/-- **There is a traversal** as long as there is room for what it opens, and a path that
cannot be read has no edges. -/
theorem exists_depthFirst {disk : Store} {edges : Path → List Path}
    (hedges : ∀ p, edges p ≠ [] → ∃ text, disk.readText p = .ok text) {bound : Nat}
    {seen : List Path} (hroom : Room disk bound seen) (todo : List Path) :
    ∃ seen' closed, DepthFirst edges seen todo seen' closed := by
  induction bound generalizing seen todo with
  | zero => exact absurd hroom.pos (Nat.lt_irrefl 0)
  | succ bound ih =>
    induction todo generalizing seen with
    | nil => exact ⟨seen, [], .done⟩
    | cons path rest ihRest =>
      by_cases hnew : Fresh seen path
      · -- what lies behind the path is visited with less room
        have hinner : ∃ between inner, DepthFirst edges (seen ++ [path]) (edges path)
            between inner := by
          by_cases hnil : edges path = []
          · rw [hnil]
            exact ⟨_, _, .done⟩
          · obtain ⟨text, hread⟩ := hedges path hnil
            exact ih (hroom.open hread hnew) (edges path)
        obtain ⟨between, inner, hinner⟩ := hinner
        have hsub : seen ⊆ between :=
          ((List.prefix_append seen [path]).trans hinner.seen_prefix).subset
        obtain ⟨seen', outer, houter⟩ := ihRest (hroom.mono hsub)
        exact ⟨seen', inner ++ path :: outer, .entered hnew hinner houter⟩
      · obtain ⟨seen', closed, hrest⟩ := ihRest hroom
        exact ⟨seen', closed, .passed hnew hrest⟩

end RpcBindings.Schema
