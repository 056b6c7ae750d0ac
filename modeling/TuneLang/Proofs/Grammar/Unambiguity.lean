import TuneLang.Proofs.Expr.Build
import TuneLang.Proofs.Grammar.Decomposition
import TuneLang.Proofs.Grammar.Source

/-!
# The grammar is unambiguous

A sequence of terminals has at most one derivation from the start: a derivation is that of a phrase, and a phrase is told by its
tokens. So the tokens of a source lead to one tree only, and the conversion of that tree never meets an ambiguity.
-/

namespace TuneLang

namespace Derivation

/-! ## Derivations with other leaves -/

variable {α β : Type}

mutual

theorem leaves_map (f : α → β) : ∀ d : Derivation α, (d.map f).leaves = d.leaves.map f
  | .leaf a => by simp [map, leaves]
  | .node p parts => by simp [map, leaves, allLeaves_mapAll f parts]

theorem allLeaves_mapAll (f : α → β) : ∀ ds : List (Derivation α), allLeaves (mapAll f ds) = (allLeaves ds).map f
  | [] => by simp [mapAll, allLeaves]
  | d :: ds => by simp [mapAll, allLeaves, leaves_map f d, allLeaves_mapAll f ds]

end

mutual

/-- Other leaves make a derivation of the same symbol when they are of the same terminals. -/
theorem of_map {f : α → β} {kind : β → Terminal} : ∀ {d : Derivation α} {s : Symbol},
    d.Of (fun a => kind (f a)) s → (d.map f).Of kind s
  | .leaf _, _, h => h
  | .node _ _, _, ⟨hp, hs, hparts⟩ => ⟨hp, hs, allOf_map hparts⟩

theorem allOf_map {f : α → β} {kind : β → Terminal} : ∀ {ds : List (Derivation α)} {symbols : List Symbol},
    AllOf (fun a => kind (f a)) ds symbols → AllOf kind (mapAll f ds) symbols
  | [], [], h => h
  | _ :: _, _ :: _, ⟨hd, hds⟩ => ⟨of_map hd, allOf_map hds⟩

end

mutual

/-- Leaves that can be told from what they are replaced with are got back. -/
theorem map_inverse {f : α → β} {g : β → α} (hinverse : ∀ a, g (f a) = a) : ∀ d : Derivation α, (d.map f).map g = d
  | .leaf a => by simp [map, hinverse]
  | .node p parts => by simp [map, mapAll_inverse hinverse parts]

theorem mapAll_inverse {f : α → β} {g : β → α} (hinverse : ∀ a, g (f a) = a) :
    ∀ ds : List (Derivation α), mapAll g (mapAll f ds) = ds
  | [] => by simp [mapAll]
  | d :: ds => by simp [mapAll, map_inverse hinverse d, mapAll_inverse hinverse ds]

end

/-! ## One derivation -/

/-- Tokens have one derivation from the start at most. -/
theorem eq_of_tokens {d d' : Derivation Token} (h : d.Of Token.terminal (.phrase .start))
    (h' : d'.Of Token.terminal (.phrase .start)) (hsettled : ∀ t ∈ d.leaves, t.Settled) (hleaves : d.leaves = d'.leaves) :
    d = d' := by
  obtain ⟨p, hp, _, rfl⟩ := d.exists_phrase h hsettled
  obtain ⟨p', hp', _, rfl⟩ := d'.exists_phrase h' (hleaves ▸ hsettled)
  have htokens : p.tokens = p'.tokens := by
    rw [← p.leaves_parse, ← p'.leaves_parse]
    exact hleaves
  rw [Phrase.tokens_inj hp hp' htokens]

/-- Terminals have one derivation from the start at most. -/
theorem eq_of_terminals {d d' : Derivation Terminal} (h : d.Of id (.phrase .start)) (h' : d'.Of id (.phrase .start))
    (hleaves : d.leaves = d'.leaves) : d = d' := by
  have hterminal : ∀ t : Terminal, t.token.terminal = t := fun _ => rfl
  -- each terminal becomes a token with the text of the terminal; the three classes get an empty text
  have heq : d.map Terminal.token = d'.map Terminal.token := by
    refine eq_of_tokens (of_map h) (of_map h') (fun t ht => ?_) ?_
    · rw [leaves_map] at ht
      obtain ⟨k, _, rfl⟩ := List.mem_map.mp ht
      exact fun _ => rfl
    · rw [leaves_map, leaves_map, hleaves]
  rw [← map_inverse hterminal d, ← map_inverse hterminal d', heq]

end Derivation

/-- The conversion of a tree that was read from a source meets no ambiguity. -/
theorem Expr.ofTree_ne_ambiguous {source : String} {tree : Tree} (h : Tree.parse source = .ok tree) (counts counts' : List Nat) :
    Expr.ofTree tree counts ≠ .error .ambiguous counts' := by
  obtain ⟨_, _, _, p, _, _, _, rfl⟩ := Tree.reads_of_parse h
  have hgives := p.gives_ofTree counts
  intro hambiguous
  rw [hambiguous] at hgives
  obtain ⟨_, _, hlabel⟩ := hgives
  cases hlabel

/-- The grammar is unambiguous: a sequence of terminals has at most one derivation from the start. So a source with a tree is spelled
by tokens that have one derivation, which gives the tree, and converting the tree never ends in an ambiguity. -/
theorem Grammar.unambiguous :
    (∀ d d' : Derivation Terminal, d.Of id (.phrase .start) → d'.Of id (.phrase .start) → d.leaves = d'.leaves → d = d') ∧
      ∀ source tree, Tree.parse source = .ok tree →
        (∃ d : Derivation Token, d.Of Token.terminal (.phrase .start) ∧ (∀ t ∈ d.leaves, t.Matches) ∧
          Token.Spelled d.leaves source.toList ∧ d.trees = [tree] ∧
          ∀ d' : Derivation Token, d'.Of Token.terminal (.phrase .start) → d'.leaves = d.leaves → d' = d) ∧
        ∀ counts counts', Expr.ofTree tree counts ≠ .error .ambiguous counts' := by
  refine ⟨fun d d' => Derivation.eq_of_terminals, fun source tree h => ⟨?_, Expr.ofTree_ne_ambiguous h⟩⟩
  obtain ⟨ts, hmatches, hspelled, p, hp, _, rfl, rfl⟩ := Tree.reads_of_parse h
  rw [← p.leaves_parse] at hmatches hspelled
  refine ⟨p.parse, Phrase.of_parse hp, hmatches, hspelled, p.trees_parse, fun d' hd' hleaves => ?_⟩
  have hsettled : ∀ t ∈ d'.leaves, t.Settled := fun t ht => (hmatches t (hleaves ▸ ht)).settled
  exact Derivation.eq_of_tokens hd' (Phrase.of_parse hp) hsettled hleaves

/-- A difference whose right operand has a sign of its own. -/
def Phrase.difference : Phrase := .sign .sub (.name "x") (.lead .neg (.int "1"))

/-- The terminals of a difference have exactly one derivation, and so have the tokens of its source. -/
theorem Grammar.unambiguous_difference :
    (∃ d : Derivation Terminal, d.Of id (.phrase .start) ∧ d.leaves = [.name, .minus, .minus, .int] ∧
      ∀ d' : Derivation Terminal, d'.Of id (.phrase .start) → d'.leaves = [.name, .minus, .minus, .int] → d' = d) ∧
      Tree.parse "x - -1" = .ok Phrase.difference.tree ∧
      (∃ d : Derivation Token, d.Of Token.terminal (.phrase .start) ∧ (∀ t ∈ d.leaves, t.Matches) ∧
        Token.Spelled d.leaves "x - -1".toList ∧ d.trees = [Phrase.difference.tree] ∧
        ∀ d' : Derivation Token, d'.Of Token.terminal (.phrase .start) → d'.leaves = d.leaves → d' = d) ∧
      ∀ counts counts', Expr.ofTree Phrase.difference.tree counts ≠ .error .ambiguous counts' := by
  have hfits : Phrase.difference.Fits := ⟨trivial, by decide, ⟨trivial, by decide⟩, by decide⟩
  have hof : (Phrase.difference.parse.map Token.terminal).Of id (.phrase .start) := Derivation.of_map (Phrase.of_parse hfits)
  have hleaves : (Phrase.difference.parse.map Token.terminal).leaves = [.name, .minus, .minus, .int] := by
    rw [Derivation.leaves_map, Phrase.leaves_parse]
    rfl
  have hparse : Tree.parse "x - -1" = .ok Phrase.difference.tree := Tree.parse_of_toOption (by decide +kernel)
  refine ⟨⟨_, hof, hleaves, fun d' hd' hd'' => ?_⟩, hparse, Grammar.unambiguous.2 _ _ hparse⟩
  exact Grammar.unambiguous.1 _ _ hd' hof (hd''.trans hleaves.symm)

end TuneLang
