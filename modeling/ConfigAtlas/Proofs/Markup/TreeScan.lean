import ConfigAtlas.Proofs.Markup.Built
import ConfigAtlas.Proofs.Markup.TreeBuild
import ConfigAtlas.Proofs.Markup.TreePaths

/-! # A tree is read as it was written -/

namespace ConfigAtlas.Markup

/-! ## Siblings -/

theorem isNull_element (t : Tree) (start : Nat) (later : List Char) :
    (t.element start later).isNull = false := by
  rw [Element.isNull, Element.name, tag_name_element]
  exact beq_eq_false_iff_ne.mpr t.name.ne_null

theorem label?_element (t : Tree) (start : Nat) (later : List Char) :
    (t.element start later).label? = none := by
  rw [Element.label?, attributes_element]
  split <;> rfl

theorem name_element (t : Tree) (start : Nat) (later : List Char) :
    (t.element start later).name = t.name.text := by
  rw [Element.name, tag_name_element]

theorem plainNames_cons (t : Tree) (start : Nat) (later : List Char) (es : List Element) :
    plainNames (t.element start later :: es) = t.name.text :: plainNames es := by
  rw [plainNames, List.filter_cons_of_pos]
  · rw [List.map_cons, name_element, plainNames]
  · simp [isNull_element, label?_element]

theorem plainNames_treesElements (ts : List Tree) (start : Nat) (later : List Char) :
    plainNames (treesElements start later ts) = ts.map fun t => t.name.text := by
  induction ts generalizing start with
  | nil => rfl
  | cons t rest ih => rw [treesElements, plainNames_cons, ih, List.map_cons]

theorem siblingPaths_cons {names before after : List (List Char)} {t : Tree}
    (hnames : names = before ++ t.name.text :: after) (path : Path) (parent : List Char)
    (start : Nat) (later : List Char) (es : List Element) :
    siblingPaths path (formList parent names) names before.reverse (t.element start later :: es) =
      some (childPathOf path parent names before t.name.text) ::
        siblingPaths path (formList parent names) names (before ++ [t.name.text]).reverse es := by
  rw [← name_element t start later] at hnames ⊢
  exact siblingPaths_of_not_labelled (isNull_element t start later) (label?_element t start later)
    hnames path es

/-! ## Places -/

section

variable {content : List Char}

theorem place_of_column {start : Nat} (key : Piece) {value? : Option Piece}
    (hstart : start ≤ content.length)
    (hkey : (LineTable.ofContent content).column key.start = Text.columnAt content key.start)
    (hvalue : ∀ v ∈ value?,
      (LineTable.ofContent content).column v.start = Text.columnAt content v.start) :
    (LineTable.ofContent content).place start (some ((LineTable.ofContent content).span key))
        (value?.map (LineTable.ofContent content).span) =
      (Text.lineAt content start).place (some ⟨Text.columnAt content key.start, key.text⟩)
        (value?.map fun v => ⟨Text.columnAt content v.start, v.text⟩) := by
  rw [LineTable.place_ofContent hstart, LineTable.span, hkey]
  cases value? with
  | none => rfl
  | some v =>
    have hv := hvalue v rfl
    rw [Option.map_some, LineTable.span, hv]
    rfl

theorem column_front {front rest : List Char} {c : Char} (hcontent : content = front ++ c :: rest)
    (hc : c ≠ '\n') :
    (LineTable.ofContent content).column front.length = Text.columnAt content front.length := by
  have hle : front.length ≤ content.length := by simp [hcontent]
  have hnext : content.drop front.length = c :: rest := by rw [hcontent, List.drop_left]
  exact LineTable.column_ofContent_of_ne hle hnext hc

variable {front : List Char} {n : Name} {after : List Char}

theorem column_name (hcontent : content = front ++ (n.opening ++ after)) :
    (LineTable.ofContent content).column (front.length + 1) =
      Text.columnAt content (front.length + 1) := by
  obtain ⟨c, rest, hn, hblank, -⟩ := n.text_eq_cons
  have hname : content = (front ++ ['<']) ++ c :: (rest ++ '>' :: after) := by
    simp [hcontent, Name.opening, hn]
  have hcolumn := column_front hname (by rintro rfl; exact absurd hblank (by decide))
  rwa [List.length_append, List.length_singleton] at hcolumn

theorem column_text {text : List Char} (htext : '\n' ∉ text)
    (hcontent : content = front ++ (text ++ (n.closing ++ after))) :
    (LineTable.ofContent content).column (Piece.trim ⟨front.length, text⟩).start =
      Text.columnAt content (Piece.trim ⟨front.length, text⟩).start := by
  have hsplit : content = (front ++ text.takeWhile Text.isBlank) ++
      (text.dropWhile Text.isBlank ++ (n.closing ++ after)) := by
    rw [List.append_assoc, ← List.append_assoc (text.takeWhile _), List.takeWhile_append_dropWhile,
      hcontent]
  have hstart : (Piece.trim ⟨front.length, text⟩).start =
      (front ++ text.takeWhile Text.isBlank).length := by
    rw [List.length_append]
    rfl
  rw [hstart]
  cases hrest : text.dropWhile Text.isBlank with
  | nil =>
    rw [hrest] at hsplit
    exact column_front hsplit (by decide)
  | cons c rest =>
    rw [hrest] at hsplit
    apply column_front hsplit
    rintro rfl
    exact htext ((List.dropWhile_sublist _).mem (hrest ▸ List.mem_cons_self))

end

/-! ## Records -/

variable {content : List Char}

theorem records_placement {front later : List Char} {t : Tree} {start : Nat}
    (hstart : start = front.length) (hcontent : content = front ++ (t.written ++ later))
    (path : Path) :
    Placement.records (LineTable.ofContent content) ⟨path, t.element start later⟩ =
      [t.record content path start] := by
  subst hstart
  have hopening : ∃ after, content = front ++ (t.name.opening ++ after) := by
    cases t <;> exact ⟨_, by rw [hcontent, Tree.written, List.append_assoc]; rfl⟩
  obtain ⟨after, hopening⟩ := hopening
  have hlength : front.length + 1 ≤ content.length := by
    simp [hopening, Name.opening]
  have hvalue : ∀ v ∈ t.value? front.length,
      (LineTable.ofContent content).column v.start = Text.columnAt content v.start := by
    intro v hv
    cases t with
    | branch => cases hv
    | leaf name text feed_not_mem after =>
      cases hv
      have htext : content = (front ++ name.opening) ++
          (text.text ++ (name.closing ++ (after.text ++ later))) := by
        simp [hcontent, Tree.written]
      have hcolumn := column_text feed_not_mem htext
      rwa [List.length_append] at hcolumn
  have hplace := place_of_column ⟨front.length + 1, t.name.text⟩ hlength
    (column_name hopening) hvalue
  have hkey : (t.element front.length later).keyPiece = ⟨front.length + 1, t.name.text⟩ := by
    rw [Element.keyPiece, label?_element, tag_name_element]
  have hattributes : (t.element front.length later).recordedAttributes = [] := by
    rw [Element.recordedAttributes, attributes_element, List.filter_nil]
  rw [Placement.records, hattributes, Placement.elementPlace, hkey, tag_name_element,
    text?_element, hplace]
  rfl

theorem records_placeAll_cons {names before after : List (List Char)} {t : Tree}
    (hnames : names = before ++ t.name.text :: after) {path : Path} {parent : List Char}
    {start : Nat} {later : List Char} {es : List Element} {own siblings : List Record}
    (hown : ((t.element start later).placements
        (childPathOf path parent names before t.name.text)).flatMap
      (·.records (LineTable.ofContent content)) = own)
    (hsiblings : (placeAll (siblingPaths path (formList parent names) names
        (before ++ [t.name.text]).reverse es) es).flatMap
      (·.records (LineTable.ofContent content)) = siblings) :
    (placeAll (siblingPaths path (formList parent names) names before.reverse
        (t.element start later :: es)) (t.element start later :: es)).flatMap
      (·.records (LineTable.ofContent content)) = own ++ siblings := by
  rw [siblingPaths_cons hnames, placeAll, List.flatMap_append, hown, hsiblings]

mutual

theorem records_placements (t : Tree) {front later : List Char} {start : Nat}
    (hstart : start = front.length) (hcontent : content = front ++ (t.written ++ later))
    (path : Path) :
    ((t.element start later).placements path).flatMap
        (·.records (LineTable.ofContent content)) =
      t.record content path start :: t.recordsBelow content path start := by
  have hown := records_placement hstart hcontent path
  cases t with
  | leaf name text feed_not_mem after =>
    rw [Tree.element, Element.placements, List.flatMap_cons, ← Tree.element, hown]
    rfl
  | branch name gap first rest after =>
    let names := first.name.text :: rest.map fun t => t.name.text
    have hnames : names = [] ++ first.name.text :: rest.map fun t => t.name.text := rfl
    have hinner : start + name.opening.length + gap.text.length =
        (front ++ (name.opening ++ gap.text)).length := by
      simp [hstart, Nat.add_assoc]
    have hafter : start + name.opening.length + gap.text.length + first.written.length =
        (front ++ (name.opening ++ (gap.text ++ first.written))).length := by
      simp [hstart, Nat.add_assoc]
    have hfront : content = (front ++ (name.opening ++ gap.text)) ++ (first.written ++
        (treesWritten rest ++ (name.closing ++ (after.text ++ later)))) := by
      rw [hcontent, Tree.written]
      simp only [List.append_assoc]
    have hmiddle : content = (front ++ (name.opening ++ (gap.text ++ first.written))) ++
        (treesWritten rest ++ (name.closing ++ (after.text ++ later))) := by
      rw [hfront]
      simp only [List.append_assoc]
    -- The first child stands behind the opening tag, the rest of them behind the first child.
    have hfirst := records_placements first hinner hfront
      (childPathOf path name.text names [] first.name.text)
    have hrest := records_placeAll_trees rest hafter hmiddle path name.text
      (hnames.trans (List.append_cons [] _ _))
    have hchildren := records_placeAll_cons hnames hfirst hrest
    rw [Tree.element, Element.placements, List.flatMap_cons, ← Tree.element, hown]
    simp only [childPaths, plainNames_cons, plainNames_treesElements]
    exact congrArg (_ :: ·) hchildren

theorem records_placeAll_trees (ts : List Tree) {front later : List Char} {start : Nat}
    (hstart : start = front.length) (hcontent : content = front ++ (treesWritten ts ++ later))
    (path : Path) (parent : List Char) {names before : List (List Char)}
    (hnames : names = before ++ ts.map fun t => t.name.text) :
    (placeAll (siblingPaths path (formList parent names) names before.reverse
        (treesElements start later ts)) (treesElements start later ts)).flatMap
      (·.records (LineTable.ofContent content)) =
        treesRecords content path parent names before start ts := by
  cases ts with
  | nil => rfl
  | cons t rest =>
    have hafter : start + t.written.length = (front ++ t.written).length := by
      simp [hstart]
    have hfront : content = front ++ (t.written ++ (treesWritten rest ++ later)) := by
      rw [hcontent, treesWritten, List.append_assoc]
    have hmiddle : content = (front ++ t.written) ++ (treesWritten rest ++ later) := by
      rw [hfront, List.append_assoc]
    have hnames' : names = (before ++ [t.name.text]) ++ rest.map fun t => t.name.text := by
      rw [hnames, List.map_cons, ← List.append_cons]
    have hfirst := records_placements t hstart hfront
      (childPathOf path parent names before t.name.text)
    have hrest := records_placeAll_trees rest hafter hmiddle path parent hnames'
    exact records_placeAll_cons hnames hfirst hrest

end

/-! ## The whole source -/

theorem placements_ofRoots {e : Element} (hnull : e.isNull = false) (hchildren : e.children ≠ []) :
    e.placements .root = ⟨.root, e⟩ :: (Document.ofRoots [e]).placements := by
  have hempty : e.children.isEmpty = false := by
    rw [List.isEmpty_eq_false_iff]
    exact hchildren
  have hroots : Document.ofRoots [e] = ⟨e.name, e.children⟩ := by
    simp [Document.ofRoots, hnull, hempty]
  obtain ⟨tag, text?, children⟩ := e
  rw [hroots, Element.placements]
  rfl

/-- A tree is on record exactly as it was written, but for the root that holds it. -/
theorem records_build_tree (front : Gap) (name : Name) (gap : Gap) (first : Tree)
    (rest : List Tree) (after : Gap) :
    let root := Tree.branch name gap first rest after
    let content := front.text ++ root.written
    let records := (Survey.build .markup (String.ofList content)).atlas.records
    records = root.recordsBelow content .root front.text.length ∧
      (records.map (·.path.address)).Nodup := by
  intro root content records
  have hcontent : content = front.text ++ (root.written ++ []) := by simp [content]
  have hplaced : recordsOf content = root.recordsBelow content .root front.text.length := by
    have hall := records_placements root rfl hcontent .root
    have hown := records_placement (t := root) rfl hcontent .root
    have hchildren : (root.element front.text.length []).children ≠ [] := by
      simp [root, Tree.element]
    rw [placements_ofRoots (isNull_element root _ _) hchildren, ← forest_written,
      ← Document.ofContent, List.flatMap_cons, hown] at hall
    exact (List.cons.inj hall).2
  have hbranching := branching_recordsBelow root content Path.noKey_root front.text.length
  have hrecords : records = root.recordsBelow content .root front.text.length := by
    rw [← hplaced] at hbranching ⊢
    show (Survey.build .markup (String.ofList content)).atlas.records = _
    rw [atlas_build_markup, String.toList_ofList]
    exact Atlas.records_ofRecords_of_branching hbranching
  refine ⟨hrecords, ?_⟩
  have haddress := hbranching.nodup_address
  rw [List.map_map] at haddress
  rw [hrecords]
  exact haddress

end ConfigAtlas.Markup
