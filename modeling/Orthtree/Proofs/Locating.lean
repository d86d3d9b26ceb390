import Orthtree.Proofs.Balancing
import Orthtree.Proofs.Growing

/-!
# Nodes at locations

Looking for a location follows its path: `nodeAt` answers with the node at the end of the path (`nodeAt_eq`), and that is
the node whose location it is (`location_eq_ok_iff`).  Where the path goes on beyond the tree, the search ends at the
leaf on the way, the only leaf there (`Reachable.deepestAt_longest`).
-/

namespace Orthtree.Tree

variable {n : Nat} {t : Tree n} {node found m : Nat} {met rest q : List Nat} {l : Location n}

/-! ## The node at a location -/

/-- The node at a location is the one that its path leads to. -/
theorem nodeAt_eq (ht : t.Linked) (l : Location n) : t.nodeAt l = .ok (t.follow l.path) := by
  obtain ⟨met, rest, found, hdeepest, hpath, hfound, hrest⟩ := exists_deepestAt ht l
  rw [nodeAt, hdeepest]
  simp only [bind, Except.bind, pure, Except.pure, ← Location.length_path, hpath, List.length_append]
  cases rest with
  | nil =>
      rw [List.append_nil, hfound]
      exact congrArg Except.ok (if_pos rfl)
  | cons c rest =>
      have hnone : t.follow (met ++ c :: rest) = none := by
        rw [Option.eq_none_iff_forall_ne_some]
        intro m hm
        exact absurd (eq_nil_of_leaf hfound (hrest (by simp)) hm) (by simp)
      rw [if_neg (by simp), hnone]

/-- The location of a node packs the path that leads to it. -/
theorem location_eq_ok_iff (ht : t.Valid) : t.location node = .ok l ↔ t.follow l.path = some node := by
  constructor
  · intro h
    obtain ⟨path, hpath, hpack⟩ := exists_of_bind_ok h
    rw [Location.path_ofPath hpack]
    exact (pathTo_eq_ok_iff ht).1 hpath
  · intro h
    rw [location, (pathTo_eq_ok_iff ht).2 h]
    exact l.ofPath_path

/-- **Nodes and locations.**  A node that lies no deeper than locations go has a location, on its level, where it is
found; no other node has the same one.  Whatever is found at a location is the node that has it. -/
theorem Reachable.nodeAt_location (h : t.Reachable) :
    (∀ node, t.contains node = .ok true → ∃ path, t.follow path = some node ∧
      (path.length ≤ maxLevel n → ∃ l, t.location node = .ok l ∧ l.path = path ∧
        t.level node = .ok l.level ∧ t.nodeAt l = .ok (some node))) ∧
    (∀ a b l, t.location a = .ok l → t.location b = .ok l → a = b) ∧
    ∀ l : Location n, ∃ found, t.nodeAt l = .ok found ∧
      ∀ node, found = some node ↔ t.contains node = .ok true ∧ t.location node = .ok l := by
  have ht := h.valid
  refine ⟨?_, ?_, ?_⟩
  · intro node hnode
    obtain ⟨path, hpath⟩ := ht.exists_follow hnode
    refine ⟨path, hpath, fun hlength => ?_⟩
    obtain ⟨l, hl, rfl⟩ := exists_location ht.toLinked hpath hlength
    refine ⟨l, hl, rfl, ?_, ?_⟩
    · rw [level_of_le ht.toLinked hpath hlength, Location.length_path]
    · rw [nodeAt_eq ht.toLinked, hpath]
  · intro a b l ha hb
    rw [location_eq_ok_iff ht] at ha hb
    exact Option.some_injective _ (ha.symm.trans hb)
  · intro l
    refine ⟨_, nodeAt_eq ht.toLinked l, ?_⟩
    intro node
    rw [location_eq_ok_iff ht, iff_and_self]
    exact contains_of_follow ht.toLinked

/-- A node two levels down, in a square whose groups were exchanged. -/
theorem Reachable.nodeAt_location_swapped :
    ∃ path, ((rootOnly 2 4).afterCalls [.refine 0, .refine 3, .swap 1 2]).follow path = some 3 ∧
      path.length ≤ maxLevel 2 ∧
      ∃ l, ((rootOnly 2 4).afterCalls [.refine 0, .refine 3, .swap 1 2]).location 3 = .ok l ∧
        l.path = path ∧
        ((rootOnly 2 4).afterCalls [.refine 0, .refine 3, .swap 1 2]).level 3 = .ok l.level ∧
        ((rootOnly 2 4).afterCalls [.refine 0, .refine 3, .swap 1 2]).nodeAt l = .ok (some 3) := by
  obtain ⟨hnode, -⟩ := Reachable.nodeAt_location
    ((Reachable.new (t := rootOnly 2 4) 13 rfl).afterCalls [.refine 0, .refine 3, .swap 1 2])
  obtain ⟨path, hpath, hlocation⟩ := hnode 3 (by decide +kernel)
  have hthere : ((rootOnly 2 4).afterCalls [.refine 0, .refine 3, .swap 1 2]).follow [2, 2] =
      some 3 := by
    decide +kernel
  have hlength : path.length ≤ maxLevel 2 := by
    rw [follow_injective ((Reachable.new 13 rfl).afterCalls _).valid.toLinked hpath hthere]
    decide
  exact ⟨path, hpath, hlength, hlocation hlength⟩

/-! ## The leaf on the way to a location -/

/-- All nodes on the way to a location lie on the way to the one where the search ends. -/
theorem isPrefix_of_way (hfound : t.follow met = some found)
    (hrest : rest ≠ [] → t.links.firstChild found = none) (hq : t.follow q = some m)
    (hway : q <+: met ++ rest) : q <+: met := by
  rcases List.prefix_or_prefix_of_prefix hway (List.prefix_append met rest) with h | ⟨s, rfl⟩
  · exact h
  · rw [List.prefix_append_right_inj] at hway
    rcases eq_or_ne rest [] with rfl | hne
    · rw [List.prefix_nil.1 hway, List.append_nil]
    · rw [eq_nil_of_leaf hfound (hrest hne) hq, List.append_nil]

/-- A node on the way than which none lies deeper is a leaf. -/
theorem firstChild_of_deepest (hfound : t.follow met = some found)
    (hrest : rest ≠ [] → t.links.firstChild found = none)
    (hdeep : ∀ m q, t.follow q = some m → q.length ≤ (met ++ rest).length) :
    t.links.firstChild found = none := by
  rcases eq_or_ne rest [] with rfl | hne
  · by_contra hbranch
    obtain ⟨c, hc⟩ := childAt?_isSome hbranch (Nat.two_pow_pos n)
    have hlength := hdeep c (met ++ [0]) (follow_concat_eq_some_iff.2 ⟨found, hfound, hc⟩)
    rw [List.append_nil, List.length_append, List.length_singleton] at hlength
    omega
  · exact hrest hne

/-- **Leaves partition the domain.**  The search for a location ends at the live node with the longest path that begins
the path of the location.  Short of the location it is a leaf; and if no node lies deeper than the location, then it is
the one leaf whose path begins the path of the location. -/
theorem Reachable.deepestAt_longest (h : t.Reachable) (l : Location n) :
    ∃ found path, t.deepestAt l = .ok found ∧ t.contains found.node = .ok true ∧
      t.pathTo found.node = .ok path ∧ path.length = found.level ∧ path <+: l.path ∧
      (∀ m q, t.pathTo m = .ok q → q <+: l.path → q <+: path) ∧
      (found.level < l.level → t.isLeaf found.node = .ok true) ∧
      ((∀ m q, t.pathTo m = .ok q → q.length ≤ l.level) → ∀ m,
        t.isLeaf m = .ok true ∧ (∃ q, t.pathTo m = .ok q ∧ q <+: l.path) ↔ m = found.node) := by
  have ht := h.valid
  obtain ⟨met, rest, found, hdeepest, hpath, hfound, hrest⟩ := exists_deepestAt ht.toLinked l
  have hleaf := isLeaf_iff_of_follow ht.toLinked hfound
  simp only [pathTo_eq_ok_iff ht, hpath, ← Location.length_path]
  refine ⟨_, met, hdeepest, contains_of_follow ht.toLinked hfound, hfound, rfl,
    List.prefix_append met rest, fun m q => isPrefix_of_way hfound hrest, ?_, ?_⟩
  · intro hless
    have hpos : 0 < rest.length := by
      rwa [List.length_append, Nat.lt_add_right_iff_pos] at hless
    exact hleaf.2 (hrest (List.ne_nil_of_length_pos hpos))
  · intro hdeep m
    -- No node lies deeper, so the node found is a leaf; two leaves on one way are the same.
    have hnone := firstChild_of_deepest hfound hrest hdeep
    constructor
    · rintro ⟨hm, q, hq, hway⟩
      rw [isLeaf_iff_of_follow ht.toLinked hq] at hm
      have hbegin := isPrefix_of_way hfound hrest hq hway
      obtain rfl := eq_of_isPrefix_of_leaf ⟨m, hq, hm⟩ hfound hbegin
      exact Option.some_injective _ (hq.symm.trans hfound)
    · rintro rfl
      exact ⟨hleaf.2 hnone, met, hfound, List.prefix_append met rest⟩

/-- In a square with one refined quarter, a place of the finer size in another quarter: that quarter is the only leaf
there. -/
theorem Reachable.deepestAt_longest_coarse :
    ∃ l found, Location.ofPath 2 [0, 3] = .ok l ∧
      ((rootOnly 2 4).afterCalls [.refine 0, .refine 3]).deepestAt l = .ok found ∧
      ∀ m, ((rootOnly 2 4).afterCalls [.refine 0, .refine 3]).isLeaf m = .ok true ∧
        (∃ q, ((rootOnly 2 4).afterCalls [.refine 0, .refine 3]).pathTo m = .ok q ∧
          q <+: l.path) ↔ m = found.node := by
  have hreachable : ((rootOnly 2 4).afterCalls [.refine 0, .refine 3]).Reachable :=
    (Reachable.new 13 rfl).afterCalls [.refine 0, .refine 3]
  have hplace : ∃ l, Location.ofPath 2 [0, 3] = .ok l ∧ l.path = [0, 3] :=
    Location.exists_ofPath (by decide) (by decide)
  obtain ⟨l, hl, hpath⟩ := hplace
  obtain ⟨found, path, hdeepest, -, -, -, -, -, -, honly⟩ := Reachable.deepestAt_longest hreachable l
  refine ⟨l, found, hl, hdeepest, honly ?_⟩
  intro m q hq
  have hlt : m < 13 := lt_capacity_of_follow hreachable.valid.toLinked
    ((pathTo_eq_ok_iff hreachable.valid).1 hq)
  have hlevels : ∀ m < 13, ∀ q ∈
      (((rootOnly 2 4).afterCalls [.refine 0, .refine 3]).pathTo m).toOption, q.length ≤ 2 := by
    decide +kernel
  rw [← Location.length_path, hpath]
  exact hlevels m hlt q (by rw [hq]; rfl)

end Orthtree.Tree
