import ConfigAtlas.Proofs.Markup.Tags

/-! # The tags of a tree build its element -/

namespace ConfigAtlas.Markup

/-! ## The element of a tree -/

mutual

/-- The element that is built of a tree at this position, with a text behind it. -/
def Tree.element (start : Nat) (later : List Char) : Tree → Element
  | .leaf name text feed_not_mem after =>
    ⟨name.tagAt start (text.text ++ (name.closing ++ (after.text ++ later))),
      (Tree.leaf name text feed_not_mem after).value? start, []⟩
  | .branch name gap first rest after =>
    let inner := start + name.opening.length + gap.text.length
    let outer := name.closing ++ (after.text ++ later)
    ⟨name.tagAt start (gap.text ++ (first.written ++ (treesWritten rest ++ outer))), none,
      first.element inner (treesWritten rest ++ outer) ::
        treesElements (inner + first.written.length) outer rest⟩

def treesElements (start : Nat) (later : List Char) : List Tree → List Element
  | [] => []
  | t :: rest =>
    t.element start (treesWritten rest ++ later) ::
      treesElements (start + t.written.length) later rest

end

theorem tag_name_element (t : Tree) (start : Nat) (later : List Char) :
    (t.element start later).tag.name = ⟨start + 1, t.name.text⟩ := by
  cases t <;> rfl

theorem attributes_element (t : Tree) (start : Nat) (later : List Char) :
    (t.element start later).tag.attributes = [] := by
  cases t <;> rfl

theorem text?_element (t : Tree) (start : Nat) (later : List Char) :
    (t.element start later).text? = t.value? start := by
  cases t <;> rfl

/-! ## Building -/

namespace Builder

theorem attach_unclosed (b : Builder) (tag : OpenTag) (cs : List Element) (e : Element)
    (outer : List Unclosed) :
    attach { b with unclosed := ⟨tag, cs⟩ :: outer } e =
      { b with unclosed := ⟨tag, e :: cs⟩ :: outer } := rfl

theorem foldl_attach_unclosed (b : Builder) (tag : OpenTag) (cs es : List Element)
    (outer : List Unclosed) :
    es.foldl attach { b with unclosed := ⟨tag, cs⟩ :: outer } =
      { b with unclosed := ⟨tag, es.reverse ++ cs⟩ :: outer } := by
  induction es generalizing cs with
  | nil => rfl
  | cons e es ih => rw [List.foldl_cons, attach_unclosed, ih]; simp

theorem openTag_tagAt (b : Builder) (n : Name) (start : Nat) (after : List Char) :
    b.openTag (n.tagAt start after) =
      { b with unclosed := ⟨n.tagAt start after, []⟩ :: b.unclosed } := rfl

theorem closeTag_innermost (b : Builder) (n : Name) (start stop : Nat) (after : List Char)
    (cs : List Element) :
    closeTag { b with unclosed := ⟨n.tagAt start after, cs⟩ :: b.unclosed } n.text stop =
      b.attach ⟨n.tagAt start after, inlineText? stop ⟨n.tagAt start after, cs⟩, cs.reverse⟩ := by
  have hdepth : (⟨n.tagAt start after, cs⟩ :: b.unclosed).findIdx?
      (·.tag.name.text == n.text) = some 0 := by
    rw [List.findIdx?_cons, if_pos (by simp [Name.tagAt])]
  simp only [closeTag, hdepth, Option.getD_some, abandon, close]

end Builder

theorem inlineText?_leaf (n : Name) {text : List Char} (h : '\n' ∉ text) (start : Nat)
    (later : List Char) :
    Builder.inlineText? (start + n.opening.length + text.length)
        ⟨n.tagAt start (text ++ later), []⟩ =
      some (Piece.trim ⟨start + n.opening.length, text⟩) := by
  have hbody : Piece.take ⟨start + n.opening.length, text ++ later⟩ text.length =
      ⟨start + n.opening.length, text⟩ := Piece.take_length_append _ _ _
  have hfeed : text.contains '\n' = false := by
    rw [← Bool.not_eq_true, List.contains_iff_mem]
    exact h
  simp only [Builder.inlineText?, Name.tagAt, Nat.add_sub_cancel_left, hbody, hfeed]
  rfl

theorem inlineText?_of_children {e : Unclosed} (h : e.children ≠ []) (stop : Nat) :
    Builder.inlineText? stop e = none := by
  have hempty : e.children.isEmpty = false := by
    rw [List.isEmpty_eq_false_iff]
    exact h
  simp only [Builder.inlineText?, hempty, Bool.false_and, Bool.false_eq_true, if_false]

mutual

theorem run_tags_tree (t : Tree) (b : Builder) (start : Nat) (later : List Char) :
    b.run (tags ⟨start, t.written ++ later⟩) =
      (b.attach (t.element start later)).run (tags ⟨start + t.written.length, later⟩) := by
  cases t with
  | leaf name text feed_not_mem after =>
    simp only [Tree.written, List.append_assoc]
    rw [tags_opening, Builder.run, Builder.step, Builder.openTag_tagAt, tags_gap text.no_tag,
      tags_closing, Builder.run, Builder.step, Builder.closeTag_innermost,
      inlineText?_leaf name feed_not_mem, tags_gap after.no_tag]
    simp only [List.length_append, Nat.add_assoc]
    rfl
  | branch name gap first rest after =>
    simp only [Tree.written, List.append_assoc]
    rw [tags_opening, Builder.run, Builder.step, Builder.openTag_tagAt, tags_gap gap.no_tag,
      run_tags_tree first, Builder.attach_unclosed, run_tags_trees rest,
      Builder.foldl_attach_unclosed, tags_closing, Builder.run, Builder.step,
      Builder.closeTag_innermost, inlineText?_of_children (by simp), tags_gap after.no_tag]
    simp only [Tree.element, List.length_append, Nat.add_assoc, List.reverse_append,
      List.reverse_reverse, List.reverse_singleton, List.singleton_append]

theorem run_tags_trees (ts : List Tree) (b : Builder) (start : Nat) (later : List Char) :
    b.run (tags ⟨start, treesWritten ts ++ later⟩) =
      ((treesElements start later ts).foldl Builder.attach b).run
        (tags ⟨start + (treesWritten ts).length, later⟩) := by
  cases ts with
  | nil => rfl
  | cons t rest =>
    simp only [treesWritten, List.append_assoc]
    rw [run_tags_tree t, run_tags_trees rest, List.length_append, ← Nat.add_assoc]
    rfl

end

theorem forest_written (front : Gap) (t : Tree) :
    (Builder.run {} (tags (.whole (front.text ++ t.written)))).forest =
      [t.element front.text.length []] := by
  have hrun := run_tags_tree t {} front.text.length []
  have hend : tags ⟨front.text.length + t.written.length, []⟩ = [] := by
    rw [tags]
    rfl
  rw [List.append_nil, hend] at hrun
  rw [Piece.whole, tags_gap front.no_tag, Nat.zero_add, hrun]
  rfl

end ConfigAtlas.Markup
