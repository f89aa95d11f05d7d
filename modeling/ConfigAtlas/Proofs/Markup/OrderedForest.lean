import Mathlib
import ConfigAtlas.Proofs.Markup.Links
import ConfigAtlas.Proofs.Markup.Visits

/-!
# The forest of a source

The elements stand in the order of their names, and a text between the tags of its element, on
the line on which the opening tag ends.
-/

namespace ConfigAtlas.Markup

/-! ## Where texts stand -/

/-- The text lies between an opening tag and a closing tag that comes later, with no line feed
between the two. -/
structure TextBetween (content : List Char) (tag : OpenTag) (text : Piece) (stop : Nat) :
    Prop where
  within : text.Within content
  behind : tag.after.start ≤ text.start
  before : text.stop ≤ stop
  later : tag.after.start ≤ stop
  same_line : '\n' ∉ (content.take stop).drop tag.after.start
  no_feed : '\n' ∉ text.text

/-- A text is what stands between the tags of the element. -/
def Node.TextsBetween (content : List Char) (seen : List Tag) (n : Node) : Prop :=
  ∀ text, n.text? = some text →
    ∃ name stop, .closing name stop ∈ seen ∧ TextBetween content n.tag text stop

section

variable {content : List Char} {n : Node}

theorem Node.TextsBetween.mono {seen more : List Tag} (h : n.TextsBetween content seen)
    (hsub : seen ⊆ more) : n.TextsBetween content more := by
  intro text htext
  obtain ⟨name, stop, hmem, hbetween⟩ := h text htext
  exact ⟨name, stop, hsub hmem, hbetween⟩

theorem textBetween_of_inlineText? {stop : Nat} {text : Piece}
    (hafter : n.tag.after.text = content.drop n.tag.after.start)
    (hpart : n.tag.after.PartOf (.whole content)) (hlater : n.tag.after.start ≤ stop)
    (htext : n.inlineText? stop = some text) : TextBetween content n.tag text stop := by
  unfold Node.inlineText? Builder.inlineText? at htext
  split at htext
  · simp only [Option.ite_none_right_eq_some, Option.some.injEq] at htext
    obtain ⟨hbody, rfl⟩ := htext
    simp only [Bool.and_eq_true, Bool.not_eq_true', List.contains_eq_mem,
      decide_eq_false_iff_not] at hbody
    have hline := hbody.2
    have htrim := Piece.PartOf.trim (n.tag.after.take (stop - n.tag.after.start))
    have hstop : (n.tag.after.take (stop - n.tag.after.start)).stop ≤ stop := by
      simp only [Piece.stop, Piece.take, List.length_take]
      omega
    refine ⟨?_, htrim.start_le, htrim.stop_le.trans hstop, hlater, ?_, ?_⟩
    · exact (htrim.trans ((Piece.PartOf.take _ _).trans hpart)).within
    · rwa [List.drop_take, ← hafter]
    · obtain ⟨front, back, hcut, -⟩ := htrim
      intro hfeed
      exact hline (hcut ▸ List.mem_append_right _ (List.mem_append_left _ hfeed))
  · cases htext

end

/-! ## During the scan -/

namespace Ledger

theorem run_append (l : Ledger) (ts more : List Tag) :
    l.run (ts ++ more) = (l.run ts).run more := by
  induction ts generalizing l with
  | nil => rfl
  | cons t rest ih => exact ih (l.step t)

theorem run_eq (ts : List Tag) : run {} ts = (Builder.run {} ts).ledger :=
  (Builder.ledger_run {} ts).symm

theorem tags_run (ts : List Tag) :
    (run {} ts).nodes.map Node.tag = ts.filterMap Tag.opening? := by
  rw [run_eq, Builder.ledger, tags_nodesAll, Builder.openTagsAll_forest, Builder.openTags_run]
  rfl

theorem opening_mem_of_mem_run {ts : List Tag} {n : Node} (h : n ∈ (run {} ts).nodes) :
    .opening n.tag ∈ ts := by
  rw [← mem_filterMap_opening?, ← tags_run]
  exact List.mem_map_of_mem h

variable {content : List Char}

theorem texts_run (ts : List Tag) (hts : ts <+: tags (.whole content)) :
    ∀ n ∈ (run {} ts).nodes, n.TextsBetween content ts := by
  -- A tag is the last one that was read, so what is open stands in front of it.
  induction ts using List.reverseRecOn with
  | nil => exact fun n hn => absurd hn List.not_mem_nil
  | append_singleton seen t ih =>
    have hseen := ih ((List.prefix_append seen [t]).trans hts)
    have hkept : ∀ n ∈ (run {} seen).nodes, n.TextsBetween content (seen ++ [t]) :=
      fun n hn => (hseen n hn).mono (List.subset_append_left _ _)
    intro n hn
    rw [run_append] at hn
    cases t with
    | opening tag =>
      obtain rfl | hold | ⟨_, m, -, hm, rfl⟩ := mem_openTag_cases hn
      · intro text htext
        cases htext
      · exact hkept n hold
      · exact hkept m (List.mem_of_getElem? hm)
    | closing name stop =>
      change n ∈ ((run {} seen).closeTag name stop).nodes at hn
      obtain hsame | ⟨inner, number, outer, -, hclosed⟩ := (run {} seen).closeTag_cases name stop
      · rw [hsame] at hn
        exact hkept n hn
      rw [hclosed] at hn
      obtain hold | ⟨m, hm, rfl⟩ := mem_endAt_cases hn
      · exact hkept n hold
      · have hopening := opening_mem_of_mem_run (List.mem_of_getElem? hm)
        have htag := hts.subset (List.mem_append_left [.closing name stop] hopening)
        have horder := (pairwise_tags (.whole content)).sublist hts.sublist
        have hlater := (List.pairwise_append.mp horder).2.2 _ hopening _ List.mem_cons_self
        intro text htext
        exact ⟨name, stop, List.mem_append_right _ List.mem_cons_self,
          textBetween_of_inlineText? (n := m) (text_after_eq_drop htag)
            (partsOf_of_mem_tags htag).after_part hlater htext⟩

/-! ## The order of names -/

theorem pairwise_names (content : List Char) :
    ((tags (.whole content)).filterMap Tag.opening?).Pairwise fun s t =>
      s.name.start < t.name.start := by
  refine (pairwise_openTags (.whole content)).imp_of_mem ?_
  intro s t hs _ horder
  have htag := mem_filterMap_opening?.mp hs
  have hname := List.length_pos_iff.mpr (name_ne_nil_of_mem_tags htag)
  have hbefore := (partsOf_of_mem_tags htag).name_before
  rw [Piece.stop] at hbefore
  omega

/-- The elements that the tags so far have made. -/
structure OrderedForest (content : List Char) (seen : List Tag) (l : Ledger) : Prop where
  linked : l.Linked
  names : l.nodes.Pairwise fun m n => m.tag.name.start < n.tag.name.start
  texts : ∀ n ∈ l.nodes, n.TextsBetween content seen

theorem orderedForest_run {ts : List Tag} (hts : ts <+: tags (.whole content)) :
    (run {} ts).OrderedForest content ts where
  linked := linked_empty.run ts
  names := by
    have hnames := (pairwise_names content).sublist (hts.sublist.filterMap Tag.opening?)
    rwa [← tags_run, List.pairwise_map] at hnames
  texts := texts_run ts hts

end Ledger

/-- At every moment the elements are the list that is linked while the tags are read, and it is
an ordered forest. Following its links in the end, with fuel for as many steps as there are
elements or more, visits exactly the elements that are placed, each of them once. -/
theorem ordered_forest (content : List Char) :
    (∀ k, (Builder.run {} ((tags (.whole content)).take k)).ledger =
        Ledger.run {} ((tags (.whole content)).take k) ∧
      (Ledger.run {} ((tags (.whole content)).take k)).OrderedForest content
        ((tags (.whole content)).take k)) ∧
    let l := Ledger.run {} (tags (.whole content))
    l.nodes = nodesAll none 0 (Builder.run {} (tags (.whole content))).forest ∧
    l.OrderedForest content (tags (.whole content)) ∧
    ∀ more, (l.visits (l.nodes.length + more)).Pairwise (· < ·) ∧
      (l.visits (l.nodes.length + more)).map l.tagAt? =
        (Document.ofContent content).placements.map (some ·.element.tag) := by
  have hnodes : (Ledger.run {} (tags (.whole content))).nodes =
      nodesAll none 0 (Builder.run {} (tags (.whole content))).forest := by
    rw [Ledger.run_eq, Builder.ledger]
  refine ⟨fun k => ⟨Builder.ledger_run {} _, Ledger.orderedForest_run (List.take_prefix _ _)⟩,
    hnodes, Ledger.orderedForest_run (List.prefix_refl _), fun more => ?_⟩
  exact visits_forest hnodes (Nat.le_add_right _ more)

end ConfigAtlas.Markup
