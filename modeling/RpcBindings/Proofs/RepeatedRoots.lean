import RpcBindings.Proofs.OmissionReports

/-! # Schemas that are given twice

A run looks at its schemas through two things: the names to import and the services that a tour
visits (`run_congr`).  Both keep the first of what they meet and pass over the rest, so both are
finished with a schema once they have gone through it.  Going through it again later, in whatever
company, adds nothing: the run gives the same output (`run_repeated_root`).
-/
namespace RpcBindings

namespace Text

variable {α : Type} [DecidableEq α]

/-- Items that have been met add nothing. -/
theorem distinct_append_of_subset {xs ys : List α} (h : ∀ y ∈ ys, y ∈ xs) :
    distinct (xs ++ ys) = distinct xs := by
  induction ys generalizing xs with
  | nil => rw [List.append_nil]
  | cons y ys ih =>
    have hlater : ∀ z ∈ ys, z ∈ xs ++ [y] := fun z hz =>
      List.mem_append_left _ (h z (List.mem_cons_of_mem _ hz))
    rw [List.append_cons, ih hlater, distinct_concat, if_pos (h y (List.mem_cons_self ..))]

/-- What an item adds depends on the distinct items before it only. -/
theorem distinct_append_congr {xs ys : List α} (h : distinct xs = distinct ys) (zs : List α) :
    distinct (xs ++ zs) = distinct (ys ++ zs) := by
  induction zs generalizing xs ys with
  | nil => rwa [List.append_nil, List.append_nil]
  | cons z zs ih =>
    have hmem : z ∈ xs ↔ z ∈ ys := by rw [← mem_distinct, h, mem_distinct]
    have hstep : distinct (xs ++ [z]) = distinct (ys ++ [z]) := by
      rw [distinct_concat, distinct_concat, h]
      exact if_congr hmem rfl rfl
    rw [List.append_cons xs, List.append_cons ys]
    exact ih hstep

/-- What a source has given already can be left out when it is asked again. -/
theorem distinct_flatMap_again {β : Type} (f : β → List α) {earlier : List β} {x : β}
    (h : x ∈ earlier) (later : List β) :
    distinct ((earlier ++ x :: later).flatMap f) = distinct ((earlier ++ later).flatMap f) := by
  have hgiven : ∀ y ∈ f x, y ∈ earlier.flatMap f := fun y hy => List.mem_flatMap.mpr ⟨x, h, hy⟩
  have hagain : distinct (earlier.flatMap f ++ f x) = distinct (earlier.flatMap f) :=
    distinct_append_of_subset hgiven
  rw [List.flatMap_append, List.flatMap_append, List.flatMap_cons, ← List.append_assoc]
  exact distinct_append_congr hagain (later.flatMap f)

end Text

namespace Generate

open RpcBindings.Binding
open RpcBindings.Emit (Options)
open RpcBindings.Schema

/-! ## What a run depends on -/

/-- **A run depends on the names to import and on the services of the tour, and on nothing
else.** -/
theorem run_congr {roots roots' : List Root} (hnames : Registry.ofRoots roots = .ofRoots roots')
    (hservices : (Tour.ofRoots roots).services = (Tour.ofRoots roots').services)
    (options : Options) (policy : Policy) :
    run options policy roots = run options policy roots' := by
  have hpass : ∀ role j, pass policy role roots j = pass policy role roots' j := by
    intro role j
    rw [pass, pass, modelsFor, modelsFor, hservices]
  simp only [run, hnames, hpass]

/-! ## Meeting a schema again -/

namespace Tour

/-- Nodes whose names have been noted are passed over. -/
theorem foldl_meet_of_seen {t : Tour} {ns : List Node} (h : ∀ n ∈ ns, n.fullName ∈ t.seen) :
    ns.foldl meet t = t := by
  induction ns with
  | nil => rfl
  | cons n ns ih =>
    rw [List.foldl_cons, meet_of_seen (h n (List.mem_cons_self ..))]
    exact ih fun m hm => h m (List.mem_cons_of_mem _ hm)

/-- A tour has noted every node of the schemas it went through. -/
theorem seen_of_mem {roots : List Root} {r : Root} (hr : r ∈ roots) :
    ∀ n ∈ postorderAll r.nodes, n.fullName ∈ (ofRoots roots).seen := by
  intro n hn
  have hmet : n ∈ met roots := List.mem_flatMap.mpr ⟨r, hr, hn⟩
  have hafter : After (met roots) (ofRoots roots) := by
    rw [ofRoots_eq_foldl]
    exact After.nil.foldl (met roots)
  exact (hafter.seen_iff n.fullName).mpr (List.mem_map_of_mem hmet)

/-- **A schema that a tour has gone through changes nothing when it comes again.** -/
theorem ofRoots_again {earlier : List Root} {r : Root} (h : r ∈ earlier) (later : List Root) :
    ofRoots (earlier ++ r :: later) = ofRoots (earlier ++ later) := by
  have hagain : (ofRoots earlier).root r = ofRoots earlier := by
    rw [root, nodes_eq_foldl]
    exact foldl_meet_of_seen (seen_of_mem h)
  calc ofRoots (earlier ++ r :: later)
    _ = later.foldl root ((ofRoots earlier).root r) := List.foldl_append
    _ = later.foldl root (ofRoots earlier) := by rw [hagain]
    _ = ofRoots (earlier ++ later) := List.foldl_append.symm

end Tour

theorem registry_again {earlier : List Root} {r : Root} (h : r ∈ earlier) (later : List Root) :
    Registry.ofRoots (earlier ++ r :: later) = Registry.ofRoots (earlier ++ later) := by
  rw [Registry.ofRoots, Registry.ofRoots, Text.distinct_flatMap_again _ h,
    Text.distinct_flatMap_again _ h]

/-- **A schema that is given again changes nothing**: wherever a further copy of it stands behind
the first, and whatever the other schemas share with it, the run gives the same bindings, the same
manifest, the same diagnostics in the same order and the same counts, and notes the same
events. -/
theorem run_repeated_root (options : Options) (policy : Policy) {earlier : List Root} {r : Root}
    (h : r ∈ earlier) (later : List Root) :
    run options policy (earlier ++ r :: later) = run options policy (earlier ++ later) :=
  run_congr (registry_again h later) (congrArg Tour.services (Tour.ofRoots_again h later))
    options policy

/-- A schema with a service that has an open method. -/
def openService : Root :=
  { nodes :=
      [.scope .message "M" ".M" [],
       .service
        { name := "S"
          fullName := ".S"
          methods :=
            [{ name := "Call", fullName := ".S.Call", requestType := "M", responseType := "M",
               request := some ⟨".M"⟩, response := some ⟨".M"⟩ },
             { name := "Lost", fullName := ".S.Lost", requestType := "M",
               responseType := "Gone", request := some ⟨".M"⟩ }] }] }

/-- A schema in which a package has taken the name of that service, and a service of its own
stands in it. -/
def packageOverService : Root :=
  { nodes :=
      [.scope .package "S" ".S"
        [.service
          { name := "T"
            fullName := ".S.T"
            methods :=
              [{ name := "Call", fullName := ".S.T.Call", requestType := ".M",
                 responseType := "Gone", request := some ⟨".M"⟩ }] }]] }

/-- The second copy follows a schema that overlaps with it, and the run has something to report
in both. -/
theorem run_repeated_openService :
    openService ∈ [openService, packageOverService] ∧
    (run {} .comment [openService, packageOverService, openService]).diagnostics.length = 2 ∧
    run {} .comment [openService, packageOverService, openService] =
      run {} .comment [openService, packageOverService] := by
  have hmem : openService ∈ [openService, packageOverService] := List.mem_cons_self ..
  exact ⟨hmem, by decide +kernel, run_repeated_root {} .comment hmem []⟩

end Generate

end RpcBindings
