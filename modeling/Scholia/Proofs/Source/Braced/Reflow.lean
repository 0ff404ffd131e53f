import Scholia.Proofs.Source.Braced.Annotations
import Scholia.Proofs.Source.Braced.Seam
import Scholia.Proofs.Text.Reflow
/-!
# Headers and lexemes with other margins

A header declares the same whatever the margins of its lines are, and the front of a text is a lexeme
of the same kind. A string in quotes can run over a line feed only behind a backslash, and then no
blank stands between the two.
-/

namespace Scholia.Source.Braced

open Text (Reflow Margin isBlank isLayout)

variable {s t w w' : Text}

/-! ## Brackets -/

section Brackets

variable {opening closing : Char}

theorem balancedLength_layout (ho : isLayout opening = false) (hc : isLayout closing = false)
    {u : Text} (hu : ∀ c ∈ u, isLayout c = true) (depth : Nat) (s : Text) :
    balancedLength opening closing depth (u ++ s) =
      u.length + balancedLength opening closing depth s := by
  induction u with
  | nil => exact (Nat.zero_add _).symm
  | cons c u ih =>
    have hlayout := hu c List.mem_cons_self
    rw [List.cons_append, balancedLength, if_neg (Text.ne_of_isLayout hlayout ho),
      if_neg (Text.ne_of_isLayout hlayout hc), ih fun d hd => hu d (List.mem_cons_of_mem _ hd),
      List.length_cons]
    omega

/-- What stands behind a balanced part does not depend on margins in it. -/
theorem reflow_drop_balanced (ho : isLayout opening = false) (hc : isLayout closing = false)
    (h : Reflow s t) (depth : Nat) :
    Reflow (s.drop (balancedLength opening closing depth s))
      (t.drop (balancedLength opening closing depth t)) := by
  induction h generalizing depth with
  | nil => exact .nil
  | @keep c s t h ih =>
    have hmore : ∀ depth, Reflow ((c :: s).drop (1 + balancedLength opening closing depth s))
        ((c :: t).drop (1 + balancedLength opening closing depth t)) := by
      intro depth
      rw [Nat.add_comm 1, Nat.add_comm 1, List.drop_succ_cons, List.drop_succ_cons]
      exact ih depth
    rw [balancedLength, balancedLength]
    split
    · exact hmore _
    split
    · split
      · exact h
      · exact hmore _
    · exact hmore _
  | @gap u v s t hu hv h ih =>
    rw [← List.cons_append, ← List.append_assoc,
      balancedLength_layout ho hc (hu.layout_gap hv), List.drop_length_add_append]
    have hnewline := balancedLength_layout ho hc Text.isLayout_newline depth t
    rw [← List.singleton_append, hnewline, List.drop_length_add_append]
    exact ih depth

end Brackets

/-! ## Annotations -/

/-- Nothing that is passed over is looked at. -/
theorem stripFrom_drop (attributes : Bool) (n : Nat) (written s : Text) :
    stripFrom attributes n written s = stripFrom attributes 0 written (s.drop n) := by
  induction n generalizing s with
  | zero => rfl
  | succ n ih =>
    cases s with
    | nil => rfl
    | cons c r => exact ih r

theorem stripFrom_layout (attributes : Bool) {u : Text} (hu : ∀ c ∈ u, isLayout c = true)
    (written s : Text) :
    stripFrom attributes 0 written (u ++ s) = stripFrom attributes 0 (u.reverse ++ written) s := by
  induction u generalizing written with
  | nil => rfl
  | cons c u ih =>
    have hlayout := hu c List.mem_cons_self
    have hat : c ≠ '@' := Text.ne_of_isLayout hlayout (by decide)
    have hbracket : c ≠ '[' := Text.ne_of_isLayout hlayout (by decide)
    rw [List.cons_append, stripFrom_cons, if_neg (by simp [hat]), if_neg (by simp [hbracket]),
      ih fun d hd => hu d (List.mem_cons_of_mem _ hd), List.reverse_cons, List.append_assoc]
    rfl

/-- What stands behind the arguments of an annotation. -/
theorem reflow_drop_arguments (h : Reflow s t) :
    Reflow (s.drop (argumentsLength s)) (t.drop (argumentsLength t)) := by
  have hblank : ∀ c, isLayout c = true → isBlank c = true := fun c => Text.isBlank_of_isLayout
  have hrest := h.dropWhile hblank
  have hlength : ∀ s : Text, s.drop (argumentsLength s) =
      if (s.dropWhile isBlank).head? = some '(' then
        (s.dropWhile isBlank).drop (balancedLength '(' ')' 0 (s.dropWhile isBlank))
      else s := by
    intro s
    rw [argumentsLength, drop_takeWhile]
    split
    · next r he =>
      rw [if_pos (by rw [he]; rfl), ← List.drop_drop, drop_takeWhile]
    · next hne =>
      rw [if_neg fun he => ?_, List.drop_zero]
      obtain ⟨r, hr⟩ := List.head?_eq_some_iff.1 he
      exact hne r hr
  rw [hlength, hlength]
  by_cases hopen : (s.dropWhile isBlank).head? = some '('
  · rw [if_pos hopen, if_pos ((hrest.head?_iff (by decide)).1 hopen)]
    exact reflow_drop_balanced (by decide) (by decide) hrest 0
  · rw [if_neg hopen, if_neg (mt (hrest.head?_iff (by decide)).2 hopen)]
    exact h

theorem attributeFits_reflow (h : Reflow w w') : attributeFits w = attributeFits w' := by
  have hrest := h.dropWhile (p := isBlank) fun c => Text.isBlank_of_isLayout
  have hfits : ∀ w : Text, attributeFits w =
      ((w.dropWhile isBlank).head?.map fun c => c == '(' || c == ',').getD true := by
    intro w
    rw [attributeFits]
    split
    · next he =>
      rw [he]
      rfl
    · next he =>
      rw [he]
      rfl
  have hplain : ∀ c, isLayout c = true → (c == '(' || c == ',') = false := by
    intro c hc
    rcases Text.isLayout_iff.1 hc with rfl | rfl | rfl | rfl <;> rfl
  rw [hfits, hfits, hrest.head?_map hplain]

/-- **Annotations are blanked in both texts**. -/
theorem reflow_stripFrom (attributes : Bool) (h : Reflow s t) (hw : Reflow w w') :
    Reflow (stripFrom attributes 0 w s) (stripFrom attributes 0 w' t) := by
  induction hn : s.length using Nat.strongRecOn generalizing s t w w' with
  | ind n ih =>
    cases h with
    | nil => exact hw.reverse
    | @gap u v s t hu hv h =>
      have hnewline : stripFrom attributes 0 w' ('\n' :: t) = stripFrom attributes 0 ('\n' :: w') t :=
        stripFrom_layout attributes Text.isLayout_newline w' t
      have hlength : s.length < n := by
        simp only [List.length_append, List.length_cons] at hn
        omega
      rw [← List.cons_append, ← List.append_assoc,
        stripFrom_layout attributes (hu.layout_gap hv), hnewline]
      refine ih _ hlength h ?_ rfl
      have hwritten : (u ++ '\n' :: v).reverse ++ w =
          v.reverse ++ '\n' :: (u.reverse ++ w) := by
        simp
      rw [hwritten]
      exact .gap hv.reverse hu.reverse hw
    | @keep c s t h =>
      rw [List.length_cons] at hn
      -- whatever is passed over, what is left is shorter
      have hpass : ∀ {k k' : Nat} {w w' : Text}, Reflow (s.drop k) (t.drop k') → Reflow w w' →
          Reflow (stripFrom attributes k w s) (stripFrom attributes k' w' t) := by
        intro k k' w w' hrest hw
        rw [stripFrom_drop, stripFrom_drop attributes k']
        refine ih (s.drop k).length ?_ hrest hw rfl
        rw [List.length_drop]
        omega
      have halphabetic : ∀ c, isLayout c = true → Text.isAlphabetic c = false := by
        intro c hc
        rcases Text.isLayout_iff.1 hc with rfl | rfl | rfl | rfl <;> rfl
      have hannotation : ∀ c, isLayout c = true → isAnnotationChar c = false := by
        intro c hc
        rcases Text.isLayout_iff.1 hc with rfl | rfl | rfl | rfl <;> rfl
      obtain ⟨hname, hbehind⟩ := h.takeWhile hannotation
      have hdrop : ∀ r : Text, r.drop (r.takeWhile isAnnotationChar).length =
          r.dropWhile isAnnotationChar := drop_takeWhile isAnnotationChar
      rw [stripFrom_cons, stripFrom_cons, h.head?_map halphabetic, attributeFits_reflow hw]
      split
      · rw [hname]
        split
        · refine hpass ?_ ((Reflow.refl _).append (.keep '@' hw))
          rw [← hdrop, ← hdrop, hname] at hbehind
          exact hbehind
        · refine hpass ?_ (.keep ' ' hw)
          rw [← List.drop_drop, ← List.drop_drop, ← hname, hdrop, hname, hdrop]
          exact reflow_drop_arguments hbehind
      split
      · next hbracket =>
        refine hpass ?_ (.keep ' ' hw)
        have hc : c = '[' := by
          simp only [Bool.and_eq_true, decide_eq_true_eq] at hbracket
          exact hbracket.1.2
        subst hc
        have hopen : ∀ r, balancedLength '[' ']' 0 ('[' :: r) - 1 = balancedLength '[' ']' 1 r := by
          intro r
          rw [balancedLength, if_pos rfl, Nat.add_sub_cancel_left]
        rw [hopen, hopen]
        exact reflow_drop_balanced (by decide) (by decide) h 1
      · have hall : Reflow (s.drop 0) (t.drop 0) := h
        exact hpass hall (.keep c hw)

/-- **A header declares the same with other margins**. -/
theorem ofText_reflow (h : Reflow s t) (attributes : Bool) :
    Header.ofText attributes s = Header.ofText attributes t := by
  have hsignature : Text.collapse (stripAnnotations attributes s) =
      Text.collapse (stripAnnotations attributes t) := by
    rw [Text.collapse, Text.collapse, stripAnnotations, stripAnnotations,
      (reflow_stripFrom attributes h .nil).words]
  rw [Header.ofText, Header.ofText, hsignature]

/-! ## Literals -/

theorem quoted_margin {q : Char} (hq : isLayout q = false) {u : Text} (hu : Margin u) (s : Text) :
    quoted q (u ++ s) = (quoted q s).map fun (inner, rest) => (u ++ inner, rest) := by
  induction u with
  | nil => exact Option.map_id'.symm
  | cons c u ih =>
    have hc := hu c List.mem_cons_self
    have hlayout := Text.isLayout_of_isMargin hc
    rw [List.cons_append, quoted_cons (Text.ne_of_isLayout hlayout (by decide)),
      if_neg (Text.ne_newline_of_isMargin hc), if_neg (Text.ne_of_isLayout hlayout hq),
      ih fun d hd => hu d (List.mem_cons_of_mem _ hd), Option.map_map]
    rfl

/-- No string in quotes runs over a line feed that no backslash covers. -/
theorem quoted_gap {q : Char} (hq : isLayout q = false) {u : Text} (hu : Margin u) (s : Text) :
    quoted q (u ++ '\n' :: s) = none := by
  rw [quoted_margin hq hu, quoted_cons (by decide), if_pos rfl]
  rfl

/-- **A string in quotes ends at the same quote**. -/
theorem quoted_reflow {q : Char} (hq : isLayout q = false) {a b : Text} (h : Reflow s t)
    (hs : quoted q s = some (a, b)) :
    ∃ a' b', quoted q t = some (a', b') ∧ Reflow a a' ∧ Reflow b b' := by
  induction hn : s.length using Nat.strongRecOn generalizing s t a with
  | ind n ih =>
    cases s with
    | nil => cases hs
    | cons c s =>
      rw [List.length_cons] at hn
      by_cases hc : c = '\\'
      · subst hc
        obtain ⟨t, rfl, htail⟩ := h.of_code (by decide)
        cases s with
        | nil => cases hs
        | cons d s =>
          rw [List.length_cons] at hn
          rw [quoted] at hs
          obtain ⟨⟨inner, rest⟩, hcovered, he⟩ := Option.map_eq_some_iff.1 hs
          cases he
          rcases htail.of_cons with ⟨t, rfl, hmore⟩ | ⟨u, v, s', t, hu, hv, he, rfl, hmore⟩
          · obtain ⟨a', b', ht, ha, hb⟩ := ih s.length (by omega) hmore hcovered rfl
            exact ⟨'\\' :: d :: a', b', by rw [quoted, ht]; rfl, .keep _ (.keep d ha), hb⟩
          · cases u with
            | nil =>
              -- the backslash covers the line feed, and blanks behind it are part of the string
              obtain ⟨rfl, rfl⟩ := List.cons.inj he
              rw [quoted_margin hq hv] at hcovered
              obtain ⟨⟨inner, rest⟩, hinner, he⟩ := Option.map_eq_some_iff.1 hcovered
              cases he
              rw [List.length_append] at hn
              obtain ⟨a', b', ht, ha, hb⟩ := ih s'.length (by omega) hmore hinner rfl
              exact ⟨'\\' :: '\n' :: a', b', by rw [quoted, ht]; rfl,
                .keep _ (.gap .nil hv ha), hb⟩
            | cons x u =>
              have hu' : Margin u := fun c hc => hu c (List.mem_cons_of_mem _ hc)
              rw [show s = u ++ '\n' :: (v ++ s') from (List.cons.inj he).2, quoted_gap hq hu'] at hcovered
              cases hcovered
      · rcases h.of_cons with ⟨t, rfl, htail⟩ | ⟨u, v, s', t, hu, hv, he, rfl, -⟩
        · rw [quoted_cons hc] at hs ⊢
          split at hs
          · cases hs
          next hnewline =>
          rw [if_neg hnewline]
          split at hs
          · next hend =>
            cases hs
            exact ⟨[c], t, if_pos hend, .refl [c], htail⟩
          · next hend =>
            obtain ⟨⟨a, b⟩, hs, he⟩ := Option.map_eq_some_iff.1 hs
            cases he
            obtain ⟨a', b', ht, ha, hb⟩ := ih s.length (by omega) htail hs rfl
            exact ⟨c :: a', b', by rw [if_neg hend, ht]; rfl, .keep c ha, hb⟩
        · rw [he, quoted_gap hq hu] at hs
          cases hs

theorem verbatim_reflow (h : Reflow s t) : Option.Rel Reflow.Cuts (verbatim s) (verbatim t) := by
  induction hn : s.length using Nat.strongRecOn generalizing s t with
  | ind n ih =>
    cases h with
    | nil => exact .none
    | @gap u v s t hu hv h =>
      refine Reflow.scan_gap (fun c s hc => verbatim_cons (Text.ne_of_isLayout hc (by decide)) s)
        hu hv (ih s.length ?_ h rfl)
      simp only [List.length_append, List.length_cons] at hn
      omega
    | @keep c s t h =>
      rw [List.length_cons] at hn
      have hmap : ∀ {x y : Option (Text × Text)}, Option.Rel Reflow.Cuts x y → ∀ front : Text,
          Option.Rel Reflow.Cuts (x.map fun (inner, rest) => (front ++ inner, rest))
            (y.map fun (inner, rest) => (front ++ inner, rest)) := by
        rintro x y (hcut | _) front
        · exact .some ⟨(Reflow.refl front).append hcut.1, hcut.2⟩
        · exact .none
      by_cases hc : c = '"'
      · subst hc
        by_cases hd : s.head? = some '"'
        · obtain ⟨s, rfl⟩ := List.head?_eq_some_iff.1 hd
          obtain ⟨t, rfl, htail⟩ := h.of_code (by decide)
          rw [List.length_cons] at hn
          have hrest := ih s.length (by omega) htail rfl
          rw [verbatim, verbatim]
          exact hmap hrest ['"', '"']
        · rw [verbatim_quote hd, verbatim_quote (mt (h.head?_iff (by decide)).2 hd)]
          exact .some ⟨.refl _, h⟩
      · rw [verbatim_cons hc, verbatim_cons hc]
        exact hmap (ih s.length (by omega) h rfl) [c]

/-! ## The front of a text -/

/-- A mark without layout is found in both texts, behind texts of which one is the other. -/
theorem exists_first_reflow {p inner rest : Text} (hne : p ≠ []) (hp : ∀ c ∈ p, isLayout c = false)
    (hfirst : Text.IsFirst p inner) (h : Reflow (inner ++ (p ++ rest)) t) :
    ∃ inner' rest', t = inner' ++ (p ++ rest') ∧ Text.IsFirst p inner' ∧ Reflow inner inner' ∧
      Reflow rest rest' := by
  obtain ⟨inner', rest', hcut, hinner, hrest⟩ :=
    Reflow.exists_of_rel (h.cutAt? hne hp) (Text.cutAt?_eq_some_iff.2 ⟨rfl, hfirst⟩)
  obtain ⟨rfl, hfirst'⟩ := Text.cutAt?_eq_some_iff.1 hcut
  exact ⟨inner', rest', rfl, hfirst', hinner, hrest⟩

/-- The inside of a literal in quotes is found in both texts. -/
theorem exists_body_reflow {q : Char} {body rest : Text} (hq : isLayout q = false) (hback : q ≠ '\\')
    (hbody : QuotedBody q body) (h : Reflow (body ++ q :: rest) t) :
    ∃ body' rest', t = body' ++ q :: rest' ∧ QuotedBody q body' ∧
      Reflow (body ++ [q]) (body' ++ [q]) ∧ Reflow rest rest' := by
  have hnewline : q ≠ '\n' := by
    rintro rfl
    exact absurd hq (by decide)
  obtain ⟨inner, rest', hquoted, hinner, hrest⟩ :=
    quoted_reflow hq h ((quoted_eq_some_iff hback hnewline).2 ⟨body, hbody, rfl, rfl⟩)
  obtain ⟨body', hbody', rfl, rfl⟩ := (quoted_eq_some_iff hback hnewline).1 hquoted
  exact ⟨body', rest', rfl, hbody', hinner, hrest⟩

theorem isOpening_reflow {dialect : Dialect} (h : Reflow s t) :
    IsOpening dialect s ↔ IsOpening dialect t := by
  unfold IsOpening
  rw [h.prefix_iff (p := ['/', '/']) (by decide), h.prefix_iff (p := ['/', '*']) (by decide),
    h.prefix_iff (p := ['"']) (by decide), h.prefix_iff (p := ['\'']) (by decide),
    h.prefix_iff (p := ['@', '"']) (by decide), h.prefix_iff (p := ['@', '$', '"']) (by decide)]

/-- **A text begins with a lexeme of the same kind**, unless it is a comment up to the end of the
line. -/
theorem Begins.reflow {dialect : Dialect} {c : Char} {lexeme : Lexeme Kind} {rest : Text}
    (hb : Begins dialect (c :: s) lexeme rest) (h : Reflow s t) (hk : lexeme.kind ≠ .lineComment) :
    ∃ text rest', Begins dialect (c :: t) ⟨lexeme.kind, text⟩ rest' ∧ Reflow lexeme.text text ∧
      Reflow rest rest' := by
  have hwhole : Reflow (c :: s) (c :: t) := .keep c h
  generalize hs : c :: s = whole at hb hwhole
  cases hb with
  | lineComment => exact absurd rfl hk
  | @blockComment inner _ hfirst =>
    obtain ⟨t', ht, hbody⟩ := hwhole.of_codes (p := ['/', '*']) (by decide)
    obtain ⟨inner', rest', rfl, hfirst', hinner, hrest⟩ :=
      exists_first_reflow (by simp) (by decide) hfirst hbody
    rw [ht]
    exact ⟨_, rest', .blockComment hfirst',
      ((Reflow.refl ['/', '*']).append hinner).append (.refl _), hrest⟩
  | @textBlock inner _ hfirst =>
    obtain ⟨t', ht, hbody⟩ := hwhole.of_codes (p := tripleQuote) (by decide)
    obtain ⟨inner', rest', rfl, hfirst', hinner, hrest⟩ :=
      exists_first_reflow (by simp [tripleQuote]) (by decide) hfirst hbody
    rw [ht]
    exact ⟨_, rest', .textBlock hfirst',
      ((Reflow.refl tripleQuote).append hinner).append (.refl _), hrest⟩
  | @string body _ hbody hblock =>
    obtain ⟨t', ht, hinside⟩ := hwhole.of_codes (p := ['"']) (by decide)
    obtain ⟨body', rest', rfl, hbody', hinner, hrest⟩ :=
      exists_body_reflow (by decide) (by decide) hbody hinside
    rw [ht] at hwhole ⊢
    exact ⟨_, rest', .string hbody' (mt (hwhole.prefix_iff (by decide)).2 hblock), .keep _ hinner, hrest⟩
  | @character body _ hbody =>
    obtain ⟨t', ht, hinside⟩ := hwhole.of_codes (p := ['\'']) (by decide)
    obtain ⟨body', rest', rfl, hbody', hinner, hrest⟩ :=
      exists_body_reflow (by decide) (by decide) hbody hinside
    rw [ht]
    exact ⟨_, rest', .character hbody', .keep _ hinner, hrest⟩
  | @verbatim sign body _ hdialect hsign hbody hbehind =>
    have hcode : ∀ c ∈ sign, isLayout c = false := by
      rcases hsign with rfl | rfl <;> decide
    obtain ⟨t', ht, hinside⟩ := hwhole.of_codes hcode
    obtain ⟨inner, rest', hverbatim, hinner, hrest⟩ := Reflow.exists_of_rel (verbatim_reflow hinside)
      (verbatim_eq_some_iff.2 ⟨body, hbody, hbehind, rfl, rfl⟩)
    obtain ⟨body', hbody', hbehind', rfl, rfl⟩ := verbatim_eq_some_iff.1 hverbatim
    rw [ht]
    exact ⟨_, rest', .verbatim hdialect hsign hbody' hbehind', (Reflow.refl sign).append hinner, hrest⟩
  | char hopen =>
    obtain ⟨rfl, rfl⟩ := List.cons.inj hs
    exact ⟨[c], t, .char (mt (isOpening_reflow hwhole).2 hopen), .refl _, h⟩

/-- **The front of a text is a lexeme of the same kind**, unless it is a comment up to the end of the
line. -/
theorem front_reflow {dialect : Dialect} {c : Char} {lexeme : Lexeme Kind} {rest : Text}
    (h : Reflow s t) (hf : front dialect c s = .found lexeme rest)
    (hk : lexeme.kind ≠ .lineComment) :
    ∃ text rest', front dialect c t = .found ⟨lexeme.kind, text⟩ rest' ∧
      Reflow lexeme.text text ∧ Reflow rest rest' := by
  obtain ⟨text, rest', hbegins, htext, hrest⟩ := (begins_of_front hf).reflow h hk
  obtain ⟨_, _, he, hfront⟩ := front_of_begins hbegins
  cases he
  exact ⟨text, rest', hfront, htext, hrest⟩

end Scholia.Source.Braced
