import MonkeyLang.Proofs.Parser.Parallel
/-!
# The kind of a token decides

Two lists whose tokens are of the same kinds are read in parallel, so the
literals of names and strings come out again in the leaves of the tree and
nowhere else. Where these are the same, too, the trees have the same leaves
besides the same shape, and then they are the same.

The main statement is `kind_of_token_decides`.
-/

namespace MonkeyLang

open scoped List

namespace Token

variable {t u : Token}

theorem Alike.matches (h : t.Alike u) : t.Matches u :=
  ⟨h.kind, fun hkind => h.literal (by revert hkind; cases t.kind <;> decide)⟩

/-- Tokens that mean the same are the same leaf. -/
theorem Alike.leaf?_eq (h : t.Alike u) : t.leaf? = u.leaf? := by
  obtain ⟨kind, literal⟩ := t
  obtain ⟨_, literal'⟩ := u
  obtain ⟨rfl, hliteral⟩ := h
  unfold leaf?
  dsimp only
  split
  · rw [show literal = literal' from hliteral (by simp)]
  · rw [show literal = literal' from hliteral (by simp)]
  · rw [show literal = literal' from hliteral (by simp)]
  · rfl

/-- Lists of them have pairs of equal leaves only. -/
theorem Alike.map_leafPairs {ts us : List Token} (h : List.Forall₂ Alike ts us) :
    ∀ pair ∈ (ts.zip us).filterMap leafPair?, pair.1 = pair.2 := by
  intro pair hpair
  obtain ⟨⟨t, u⟩, htu, hleaves⟩ := List.mem_filterMap.1 hpair
  have halike : t.Alike u := (List.forall₂_iff_zip.1 h).2 htu
  obtain ⟨a, ha, hpaired⟩ := Option.bind_eq_some_iff.1 hleaves
  obtain ⟨b, hb, rfl⟩ := Option.map_eq_some_iff.1 hpaired
  exact Option.some.inj (ha.symm.trans (halike.leaf?_eq.trans hb))

end Token

/-- **Tokens that mean the same are read as the same program.** -/
theorem read_eq_of_alike {ts us : List Token} (h : List.Forall₂ Token.Alike ts us) :
    (read ts).program = (read us).program ∧ (read ts).errors = (read us).errors := by
  obtain ⟨herrors, pairs, hstatements, hpairs⟩ :=
    read_parallel (h.imp fun _ _ => Token.Alike.matches)
  have htrees := hstatements.together Stmt.lists
  have hleaves : pairs.map Prod.fst = pairs.map Prod.snd :=
    List.map_congr_left fun pair hpair => Token.Alike.map_leafPairs h pair (hpairs.subset hpair)
  have hsame : Stmt.leavesAll (read ts).statements ++ [] =
      Stmt.leavesAll (read us).statements ++ [] :=
    congrArg (· ++ []) (htrees.left.trans (hleaves.trans htrees.right.symm))
  exact ⟨congrArg Program.mk (Stmt.eq_of_shapeAll _ _ htrees.shape hsame).1, herrors⟩

/-- **The kind of a token decides.** Two lists whose tokens agree in their
kinds, and in the literals of identifiers, numbers, strings and illegal
tokens, are read as the same program with the same errors. Where they agree
in their kinds and in the literals of numbers and illegal tokens only, the
errors are still the same, and so is the shape of the program: what differs
are names and strings, and these are paired like the tokens they come from. -/
theorem kind_of_token_decides (ts us : List Token) :
    (List.Forall₂ Token.Alike ts us →
      (read ts).program = (read us).program ∧ (read ts).errors = (read us).errors) ∧
    (List.Forall₂ Token.Matches ts us →
      (read ts).errors = (read us).errors ∧
        Stmt.shapeAll (read ts).program.statements = Stmt.shapeAll (read us).program.statements ∧
        ∃ pairs, pairs <+ (ts.zip us).filterMap Token.leafPair? ∧
          Stmt.leavesAll (read ts).program.statements = pairs.map Prod.fst ∧
          Stmt.leavesAll (read us).program.statements = pairs.map Prod.snd) := by
  refine ⟨read_eq_of_alike, fun h => ?_⟩
  obtain ⟨herrors, pairs, hstatements, hpairs⟩ := read_parallel h
  have htrees := hstatements.together Stmt.lists
  exact ⟨herrors, htrees.shape, pairs, hpairs, htrees.left, htrees.right⟩

/-- In `let x = 1 ?` the spelling of `let` and of `=` does not matter, and
another name in the place of `x` is another name in the tree. -/
theorem kind_of_token_decides_let :
    let ts : List Token := [⟨.letWord, "let"⟩, ⟨.ident, "x"⟩, ⟨.assign, "="⟩, ⟨.int, "1"⟩,
      ⟨.illegal, "?"⟩]
    let us : List Token := [⟨.letWord, "LET"⟩, ⟨.ident, "x"⟩, ⟨.assign, ":="⟩, ⟨.int, "1"⟩,
      ⟨.illegal, "?"⟩]
    let vs : List Token := [⟨.letWord, "let"⟩, ⟨.ident, "y"⟩, ⟨.assign, "="⟩, ⟨.int, "1"⟩,
      ⟨.illegal, "?"⟩]
    (List.Forall₂ Token.Alike ts us ∧
      (read ts).program = (read us).program ∧ (read ts).errors = (read us).errors) ∧
    List.Forall₂ Token.Matches ts vs ∧ (read ts).errors = (read vs).errors ∧
      Stmt.shapeAll (read ts).program.statements = Stmt.shapeAll (read vs).program.statements ∧
      ∃ pairs, pairs <+ [(.name "x", .name "y"), (.int 1, .int 1)] ∧
        Stmt.leavesAll (read ts).program.statements = pairs.map Prod.fst ∧
        Stmt.leavesAll (read vs).program.statements = pairs.map Prod.snd := by
  intro ts us vs
  have halike : List.Forall₂ Token.Alike ts us :=
    .cons ⟨rfl, by decide⟩ (.cons ⟨rfl, by decide⟩ (.cons ⟨rfl, by decide⟩
      (.cons ⟨rfl, by decide⟩ (.cons ⟨rfl, by decide⟩ .nil))))
  have hmatches : List.Forall₂ Token.Matches ts vs :=
    .cons ⟨rfl, by decide⟩ (.cons ⟨rfl, by decide⟩ (.cons ⟨rfl, by decide⟩
      (.cons ⟨rfl, by decide⟩ (.cons ⟨rfl, by decide⟩ .nil))))
  obtain ⟨herrors, hshape, pairs, hpairs, hleft, hright⟩ :=
    (kind_of_token_decides ts vs).2 hmatches
  have hplaces : (ts.zip vs).filterMap Token.leafPair? =
      [(.name "x", .name "y"), (.int 1, .int 1)] := by decide
  exact ⟨⟨halike, (kind_of_token_decides ts us).1 halike⟩, hmatches, herrors, hshape, pairs,
    hplaces ▸ hpairs, hleft, hright⟩

end MonkeyLang
