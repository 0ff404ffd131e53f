import Scholia.Model.Endpoint
import Scholia.Proofs.Text.Rows
/-!
# Base addresses and endpoints

A base address is a scheme of the web, the mark, and segments between slashes (`IsBase`). The address
of an endpoint has the same scheme and begins with the same segments, each behind one slash, and ends
with the route of the format. It is a base address itself, and stays as it is when it is resolved
again (`resolve_canonical`).

**What does not hold**. Slashes at the end of a base address do not count, but a slash behind a blank
at the end makes the blank part of the last segment, and leads to another endpoint
(`resolve_slash_behind_blank`).

A base address may be given with the version and with the route, or without
(`resolve_of_partial_base`). Whether the route is there is seen from the letters at the end of the
address and not from its segments, and a host may be taken for the version; so for a base address
that is given without both the law has an exception (`resolve_host_like_route`).
-/

namespace Scholia.Model.Endpoint

open Text (allBlank isBlank join lowered splitWhere trim trimEnd)

variable {base scheme rest rest' host model url route a b s tail : Text} {segs more path : List Text}
  {e : Endpoint}

/-! ## Segments -/

/-- A text that can stand between two slashes of an address. -/
def IsSegment (s : Text) : Prop :=
  s ≠ [] ∧ '/' ∉ s

instance : DecidablePred IsSegment := fun s => inferInstanceAs (Decidable (s ≠ [] ∧ '/' ∉ s))

theorem isSegment_of_mem (h : s ∈ segments rest) : IsSegment s := by
  obtain ⟨hpart, hne⟩ := List.mem_filter.1 h
  exact ⟨by simpa using hne, Text.not_mem_of_mem_splitWhere hpart⟩

/-- **The segments at both sides of a slash**. -/
theorem segments_append (a b : Text) : segments (a ++ '/' :: b) = segments a ++ segments b := by
  rw [segments, Text.splitWhere_append rfl, List.filter_append]
  rfl

theorem segments_segment (h : IsSegment s) : segments s = [s] := by
  rw [segments, Text.splitWhere_of_not_mem h.2]
  exact List.filter_cons_of_pos (by simpa using h.1)

/-- **Segments that are joined can be told apart**. -/
theorem segments_join (h : ∀ s ∈ segs, IsSegment s) : segments (join ['/'] segs) = segs := by
  cases segs with
  | nil => rfl
  | cons s segs =>
    rw [segments, Text.splitWhere_join (List.cons_ne_nil s segs) fun l hl => (h l hl).2]
    exact List.filter_eq_self.2 fun l hl => by simpa using (h l hl).1

/-- The first of the segments. -/
def firstSegment (rest : Text) : Text :=
  (rest.dropWhile (· == '/')).takeWhile (· != '/')

theorem exists_segments (h : ∃ c ∈ rest, c ≠ '/') :
    ∃ others, segments rest = firstSegment rest :: others := by
  induction rest with
  | nil =>
    obtain ⟨c, hc, -⟩ := h
    cases hc
  | cons c rest ih =>
    by_cases hc : c = '/'
    · subst hc
      obtain ⟨d, hd, hne⟩ := h
      obtain ⟨others, hothers⟩ := ih ⟨d, (List.mem_cons.1 hd).resolve_left hne, hne⟩
      exact ⟨others, (segments_append [] rest).trans hothers⟩
    · -- the text begins with the first segment
      have hfirst : firstSegment (c :: rest) = (c :: rest).takeWhile (· != '/') := by
        rw [firstSegment, List.dropWhile_cons_of_neg (by simpa using hc)]
      have hsegment : IsSegment (firstSegment (c :: rest)) := by
        rw [hfirst]
        refine ⟨?_, fun hmem => by simpa using List.mem_takeWhile_imp hmem⟩
        rw [List.takeWhile_cons_of_pos (by simpa using hc)]
        exact List.cons_ne_nil _ _
      have hparts := List.takeWhile_append_dropWhile (p := (· != '/')) (l := c :: rest)
      have hhead := List.head?_dropWhile_not (· != '/') (c :: rest)
      rw [← hfirst] at hparts
      cases hbehind : (c :: rest).dropWhile (· != '/') with
      | nil =>
        rw [hbehind, List.append_nil] at hparts
        refine ⟨[], ?_⟩
        conv_lhs => rw [← hparts, segments_segment hsegment]
      | cons d behind =>
        rw [hbehind] at hhead hparts
        have hd : d = '/' := by simpa using hhead
        refine ⟨segments behind, ?_⟩
        conv_lhs => rw [← hparts, hd, segments_append, segments_segment hsegment]
        rfl

theorem segments_of_slashes (h : ∀ c ∈ rest, c = '/') : segments rest = [] := by
  induction rest with
  | nil => rfl
  | cons c rest ih =>
    obtain ⟨rfl, hrest⟩ := List.forall_mem_cons.1 h
    exact (segments_append [] rest).trans (ih hrest)

theorem segments_ne_nil_iff : segments rest ≠ [] ↔ ∃ c ∈ rest, c ≠ '/' := by
  constructor
  · intro h
    by_contra hnone
    push Not at hnone
    exact h (segments_of_slashes hnone)
  · intro h
    obtain ⟨others, hothers⟩ := exists_segments h
    rw [hothers]
    exact List.cons_ne_nil _ _

/-! ## More slashes -/

/-- A place at either end of a text, or beside a slash. -/
inductive AtSlash : Text → Text → Prop
  | front (b : Text) : AtSlash [] b
  | back (a : Text) : AtSlash a []
  | behind (a b : Text) : AtSlash (a ++ ['/']) b
  | before (a b : Text) : AtSlash a ('/' :: b)

/-- One slash more at such a place is no segment more. -/
theorem AtSlash.segments_eq (h : AtSlash a b) : segments (a ++ '/' :: b) = segments (a ++ b) := by
  cases h with
  | front => exact segments_append [] b
  | back =>
    rw [segments_append, List.append_nil]
    exact List.append_nil _
  | behind a b =>
    have hlast : segments (a ++ ['/']) = segments a :=
      (segments_append a []).trans (List.append_nil _)
    rw [segments_append, hlast, List.append_assoc, List.singleton_append, segments_append]
  | before a b =>
    rw [segments_append, segments_append]
    exact congrArg (_ ++ ·) (segments_append [] b)

/-- A text with more slashes beside its slashes and at its ends. -/
inductive Slashed (rest : Text) : Text → Prop
  | refl : Slashed rest rest
  | more {a b : Text} (h : Slashed rest (a ++ b)) (hplace : AtSlash a b) :
    Slashed rest (a ++ '/' :: b)

/-- **More slashes are no segments more**. -/
theorem Slashed.segments_eq (h : Slashed rest rest') : segments rest' = segments rest := by
  induction h with
  | refl => rfl
  | more _ hplace ih => exact hplace.segments_eq.trans ih

theorem slashed_replicate (rest : Text) (n : Nat) : Slashed rest (rest ++ List.replicate n '/') := by
  induction n with
  | zero =>
    rw [List.replicate_zero, List.append_nil]
    exact .refl
  | succ n ih =>
    rw [List.replicate_succ', ← List.append_assoc]
    refine .more ?_ (.back _)
    rwa [List.append_nil]

/-! ## Schemes -/

/-- The two schemes of the web, in either case. -/
def IsWeb (scheme : Text) : Prop :=
  lowered scheme = "http".toList ∨ lowered scheme = "https".toList

instance : DecidablePred IsWeb := fun _ => inferInstanceAs (Decidable (_ ∨ _))

theorem isScheme_iff : isScheme scheme = true ↔ IsWeb scheme := by
  simp only [isScheme, Text.sameLetters, Bool.or_eq_true, beq_iff_eq]
  rfl

namespace IsWeb

theorem mem_letters (h : IsWeb scheme) {c : Char} (hc : c ∈ scheme) : c.toLower ∈ "https".toList := by
  have hmem : c.toLower ∈ lowered scheme := List.mem_map_of_mem hc
  rcases h with h | h <;> rw [h] at hmem
  · exact (by decide : ∀ d ∈ "http".toList, d ∈ "https".toList) _ hmem
  · exact hmem

theorem not_mem (h : IsWeb scheme) {c : Char} (hc : c.toLower ∉ "https".toList) : c ∉ scheme :=
  fun hmem => hc (h.mem_letters hmem)

theorem ne_nil (h : IsWeb scheme) : scheme ≠ [] := by
  rintro rfl
  rcases h with h | h <;> cases h

/-- A blank is no letter, in either case. -/
theorem not_isBlank (h : IsWeb scheme) {c : Char} (hc : c ∈ scheme) : isBlank c = false := by
  by_contra hblank
  have hsame : c.toLower = c := by
    refine dif_neg fun hcapital => ?_
    have hlow : 65 ≤ c.toNat := hcapital.1
    have hhigh : c.toNat ≤ 90 := hcapital.2
    simp only [isBlank, Bool.not_eq_false, Bool.or_eq_true, Bool.and_eq_true, decide_eq_true_eq,
      beq_iff_eq] at hblank
    omega
  have hmem := h.mem_letters hc
  rw [hsame] at hmem
  exact hblank ((by decide : ∀ d ∈ "https".toList, isBlank d = false) c hmem)

/-- **The first mark stands behind the scheme**. -/
theorem cutAt? (h : IsWeb scheme) (rest : Text) :
    Text.cutAt? schemeEnd (scheme ++ (schemeEnd ++ rest)) = some (scheme, rest) :=
  Text.cutAt?_of_not_mem (h.not_mem (c := ':') (by decide)) "//".toList rest

end IsWeb

/-! ## Base addresses -/

/-- A base address: but for blanks around it, a scheme of the web, the mark, and a text with a
segment. -/
structure IsBase (base scheme rest : Text) : Prop where
  text : trim base = scheme ++ (schemeEnd ++ rest)
  web : IsWeb scheme
  host : ∃ c ∈ rest, c ≠ '/'

/-- The address of a scheme and segments. -/
def joined (scheme : Text) (segs : List Text) : Text :=
  scheme ++ (schemeEnd ++ join ['/'] segs)

/-- The address of an endpoint, from the scheme and the segments of the base address. -/
def address (route scheme : Text) (segs : List Text) : Text :=
  joined scheme segs ++ completion route (joined scheme segs) segs

/-- **A base address is resolved**. -/
theorem IsBase.resolves (h : IsBase base scheme rest) (model : Text) :
    resolve base model =
      .ok ⟨.ofModel model, address (Format.ofModel model).route scheme (segments rest)⟩ := by
  have hhost : (segments rest).isEmpty = false := by
    simpa using segments_ne_nil_iff.2 h.host
  rw [Endpoint.resolve, h.text, h.web.cutAt?]
  show (if !isScheme scheme then _ else _) = _
  rw [isScheme_iff.2 h.web, hhost]
  simp only [Bool.not_true, Bool.false_eq_true, if_false, address, joined, List.append_assoc]

/-- **What is resolved is a base address**. -/
theorem exists_isBase (h : resolve base model = .ok e) : ∃ scheme rest, IsBase base scheme rest := by
  rw [Endpoint.resolve] at h
  split at h
  · cases h
  next scheme rest hcut =>
    split at h
    · cases h
    next hscheme =>
      dsimp only at h
      split at h
      · cases h
      next hhost =>
        refine ⟨scheme, rest, ?_, ?_, ?_⟩
        · rw [Text.eq_of_cutAt? hcut, List.append_assoc]
        · exact isScheme_iff.1 (by simpa using hscheme)
        · exact segments_ne_nil_iff.1 (by simpa using hhost)

/-- A base address begins with no blank. -/
theorem head_not_blank (hweb : IsWeb scheme) (rest : Text) :
    ∀ c, (scheme ++ rest).head? = some c → isBlank c = false := by
  obtain ⟨c, letters, rfl⟩ := List.exists_cons_of_ne_nil hweb.ne_nil
  intro d hd
  obtain rfl : c = d := Option.some.inj hd
  exact hweb.not_isBlank List.mem_cons_self

/-- An address that ends with no blank, with blanks around it. -/
theorem isBase_between {before after : Text} (hbefore : allBlank before = true)
    (hafter : allBlank after = true) (hweb : IsWeb scheme)
    (hlast : ∀ c, (schemeEnd ++ rest).getLast? = some c → isBlank c = false)
    (hhost : ∃ c ∈ rest, c ≠ '/') :
    IsBase (before ++ (scheme ++ (schemeEnd ++ rest) ++ after)) scheme rest where
  text := by
    refine Text.trimWhere_between hbefore hafter (head_not_blank hweb _) fun c hc => hlast c ?_
    rw [List.getLast?_append] at hc
    cases hend : (schemeEnd ++ rest).getLast? with
    | none => exact absurd (List.getLast?_eq_none_iff.1 hend) (List.cons_ne_nil _ _)
    | some d =>
      rw [hend, Option.some_or] at hc
      exact hc
  web := hweb
  host := hhost

/-! ## The end of the address -/

/-- The route of a format, as segments. -/
theorem segments_route (format : Format) :
    format.route = join ['/'] (segments format.route) ∧ segments format.route ≠ [] ∧
      ∀ s ∈ segments format.route, IsSegment s ∧ trimEnd s = s := by
  cases format <;> decide

/-- **What an address lacks is segments**, none of which ends with a blank. -/
theorem completion_segments (format : Format) (url : Text) (hsegs : segs ≠ []) :
    ∃ more, join ['/'] segs ++ completion format.route url segs = join ['/'] (segs ++ more) ∧
      ∀ s ∈ more, IsSegment s ∧ trimEnd s = s := by
  obtain ⟨hroute, hne, hsegment⟩ := segments_route format
  rw [completion]
  split
  · exact ⟨[], by rw [List.append_nil, List.append_nil], fun s hs => by cases hs⟩
  split
  · refine ⟨segments format.route, ?_, hsegment⟩
    rw [Text.join_append_join hsegs hne, ← hroute]
  · refine ⟨"v1".toList :: segments format.route, ?_, ?_⟩
    · rw [Text.join_append_join hsegs (List.cons_ne_nil _ _), Text.join_cons hne, ← hroute]
      rfl
    · exact List.forall_mem_cons.2 ⟨by decide, hsegment⟩

theorem completion_of_suffix (h : route <:+ url) : completion route url segs = [] :=
  if_pos (List.isSuffixOf_iff_suffix.2 h)

/-- **An address ends with the route**. -/
theorem suffix_address (route scheme : Text) (segs : List Text) :
    route <:+ address route scheme segs := by
  rw [address, completion]
  split
  · next h =>
    rw [List.append_nil]
    exact List.isSuffixOf_iff_suffix.1 h
  split
  · exact ⟨joined scheme segs ++ ['/'], by simp⟩
  · exact ⟨joined scheme segs ++ "/v1/".toList, by simp⟩

/-- **The address of an endpoint is that of its segments**. -/
theorem exists_address (format : Format) (scheme : Text) (hsegs : segs ≠ []) :
    ∃ more, address format.route scheme segs = joined scheme (segs ++ more) ∧
      ∀ s ∈ more, IsSegment s ∧ trimEnd s = s := by
  obtain ⟨more, hmore, hsegment⟩ := completion_segments format (joined scheme segs) hsegs
  refine ⟨more, ?_, hsegment⟩
  rw [address, joined, joined, ← hmore]
  simp only [joined, List.append_assoc]

/-- An address that ends with the route of a format ends with no blank. -/
theorem last_not_blank {format : Format} (h : format.route <:+ url) :
    ∀ c, url.getLast? = some c → isBlank c = false := by
  obtain ⟨front, rfl⟩ := h
  intro c hc
  rw [List.getLast?_append] at hc
  have hs : some 's' = some c := by cases format <;> exact hc
  cases hs
  rfl

/-- Joined segments are a base address, if they do not end with a blank. -/
theorem isBase_joined (hweb : IsWeb scheme) (hsegs : segs ≠ []) (hsegment : ∀ s ∈ segs, IsSegment s)
    (hlast : ∀ c, (joined scheme segs).getLast? = some c → isBlank c = false) :
    IsBase (joined scheme segs) scheme (join ['/'] segs) where
  text := Text.trimWhere_eq_self (head_not_blank hweb _) hlast
  web := hweb
  host := by
    refine segments_ne_nil_iff.1 ?_
    rwa [segments_join hsegment]

/-- An address that ends with the route is not completed. -/
theorem resolve_joined (model : Text) (hweb : IsWeb scheme) (hsegs : segs ≠ [])
    (hsegment : ∀ s ∈ segs, IsSegment s) (hroute : (Format.ofModel model).route <:+ joined scheme segs) :
    resolve (joined scheme segs) model = .ok ⟨.ofModel model, joined scheme segs⟩ := by
  rw [(isBase_joined hweb hsegs hsegment (last_not_blank hroute)).resolves, segments_join hsegment,
    address, completion_of_suffix hroute, List.append_nil]

/-! ## Canonical endpoints -/

/-- An endpoint of a model, under a base address of this scheme and this rest: the segments stand
behind one slash each, the first one is the first of the base address, the route stands at the end,
and the address leads to the same endpoint again. -/
structure IsCanonical (model scheme rest : Text) (e : Endpoint) : Prop where
  format : e.format = Format.ofModel model
  segments : ∃ others, e.url = joined scheme (firstSegment rest :: others) ∧
    ∀ s ∈ firstSegment rest :: others, IsSegment s
  route : e.format.route <:+ e.url
  again : resolve e.url model = .ok e

/-- **Endpoints are canonical**. -/
theorem IsBase.isCanonical (h : IsBase base scheme rest) (he : resolve base model = .ok e) :
    IsCanonical model scheme rest e := by
  obtain ⟨others, hothers⟩ := exists_segments h.host
  have hne : segments rest ≠ [] := segments_ne_nil_iff.2 h.host
  obtain ⟨more, haddress, hmore⟩ := exists_address (Format.ofModel model) scheme hne
  have hall : ∀ s ∈ segments rest ++ more, IsSegment s := fun s hs =>
    (List.mem_append.1 hs).elim isSegment_of_mem fun hs => (hmore s hs).1
  have hroute := suffix_address (Format.ofModel model).route scheme (segments rest)
  rw [h.resolves] at he
  cases he
  refine ⟨rfl, ⟨others ++ more, ?_, ?_⟩, hroute, ?_⟩
  · rw [haddress, hothers, List.cons_append]
  · rwa [hothers] at hall
  · rw [haddress] at hroute ⊢
    exact resolve_joined model h.web (List.append_ne_nil_of_left_ne_nil hne more) hall hroute

/-- Base addresses of one scheme with the same segments have the same endpoint. -/
theorem IsBase.resolve_congr (h : IsBase base scheme rest) {base' : Text}
    (htext : trim base' = scheme ++ (schemeEnd ++ rest')) (hsegments : segments rest' = segments rest)
    (model : Text) : resolve base' model = resolve base model := by
  have h' : IsBase base' scheme rest' := by
    refine ⟨htext, h.web, segments_ne_nil_iff.1 ?_⟩
    rw [hsegments]
    exact segments_ne_nil_iff.2 h.host
  rw [h.resolves, h'.resolves, hsegments]

/-! ## Slashes behind blanks -/

/-- The blanks around a base address. -/
theorem IsBase.exists_blanks (h : IsBase base scheme rest) :
    ∃ before after, base = before ++ (scheme ++ (schemeEnd ++ rest) ++ after) ∧
      allBlank before = true ∧ allBlank after = true ∧
      trimEnd base = before ++ (scheme ++ (schemeEnd ++ rest)) := by
  obtain ⟨after, hbase, -, hafter⟩ := Text.exists_trimWhere isBlank base
  rw [show Text.trimWhere isBlank base = _ from h.text] at hbase
  refine ⟨base.takeWhile isBlank, after, hbase, List.all_takeWhile, hafter, ?_⟩
  have hne : scheme ++ (schemeEnd ++ rest) ≠ [] := List.append_ne_nil_of_left_ne_nil h.web.ne_nil _
  have hend : trimEnd (scheme ++ (schemeEnd ++ rest)) = scheme ++ (schemeEnd ++ rest) := by
    rw [← h.text]
    exact Text.trimEnd_trimEnd _
  conv_lhs => rw [hbase, ← List.append_assoc, Text.trimEnd_append hafter]
  exact Text.trimEnd_append_self hne hend

/-- What stands behind a text without a slash between belongs to the last segment, or is one. -/
theorem exists_last_segment (htail : IsSegment tail) (rest : Text) :
    ∃ front last, segments (rest ++ tail) = front ++ [last ++ tail] ∧
      (segments rest = front ++ [last] ∨ last = [] ∧ segments rest = front) := by
  obtain ⟨front, last, hlast, hrest, hbehind⟩ : ∃ front last, '/' ∉ last ∧
      segments rest = front ++ segments last ∧
      segments (rest ++ tail) = front ++ segments (last ++ tail) := by
    by_cases hslash : '/' ∈ rest.reverse
    · obtain ⟨after, before, hreverse, hafter⟩ := List.eq_append_cons_of_mem hslash
      have hrest : rest = before.reverse ++ '/' :: after.reverse := by
        rw [← List.reverse_reverse rest, hreverse]
        simp
      refine ⟨segments before.reverse, after.reverse, by simpa using hafter, ?_, ?_⟩
      · rw [hrest, segments_append]
      · rw [hrest, List.append_assoc, List.cons_append, segments_append]
    · exact ⟨[], rest, by simpa using hslash, rfl, rfl⟩
  have hsegment : IsSegment (last ++ tail) :=
    ⟨List.append_ne_nil_of_right_ne_nil last htail.1, by simp [hlast, htail.2]⟩
  refine ⟨front, last, by rw [hbehind, segments_segment hsegment], ?_⟩
  by_cases hnil : last = []
  · subst hnil
    exact .inr ⟨rfl, hrest.trans (List.append_nil _)⟩
  · exact .inl (by rw [hrest, segments_segment ⟨hnil, hlast⟩])

/-- **Blanks that belong to a segment make another address**. -/
theorem address_blanks_ne (format : Format) (hblank : allBlank tail = true) (hne : tail ≠ [])
    (hhost : ∃ c ∈ rest, c ≠ '/') :
    address format.route scheme (segments (rest ++ tail)) ≠
      address format.route scheme (segments rest) := by
  have htail : IsSegment tail :=
    ⟨hne, fun hmem => absurd (List.all_eq_true.1 hblank _ hmem) (by decide)⟩
  obtain ⟨front, last, hbehind, hrest⟩ := exists_last_segment htail rest
  obtain ⟨more, haddress, hmore⟩ := exists_address format scheme (segments_ne_nil_iff.2 hhost)
  have hsegs : segments (rest ++ tail) ≠ [] := by
    rw [hbehind]
    exact List.append_ne_nil_of_right_ne_nil _ (List.cons_ne_nil _ _)
  obtain ⟨more', haddress', hmore'⟩ := exists_address format scheme hsegs
  intro heq
  have hsegments : segments (rest ++ tail) ++ more' = segments rest ++ more := by
    rw [haddress, haddress', joined, joined] at heq
    have hjoin := congrArg segments (List.append_cancel_left (List.append_cancel_left heq))
    rwa [segments_join, segments_join] at hjoin
    · exact fun s hs => (List.mem_append.1 hs).elim isSegment_of_mem fun hs => (hmore s hs).1
    · exact fun s hs => (List.mem_append.1 hs).elim isSegment_of_mem fun hs => (hmore' s hs).1
  rw [hbehind, List.append_assoc, List.singleton_append] at hsegments
  rcases hrest with hrest | ⟨rfl, hrest⟩
  · rw [hrest, List.append_assoc, List.singleton_append] at hsegments
    have hlast := (List.cons.inj (List.append_cancel_left hsegments)).1
    exact hne (List.append_right_eq_self.1 hlast)
  · -- what an address lacks holds no blanks
    rw [hrest] at hsegments
    have hmem : tail ∈ more := by
      rw [← List.append_cancel_left hsegments]
      exact List.mem_cons_self
    have hend := (hmore tail hmem).2
    rw [Text.trimEnd_of_allBlank hblank] at hend
    exact hne hend.symm

/-- **A slash at the end counts exactly if a blank stands before it**. -/
theorem IsBase.resolve_slashes_iff (h : IsBase base scheme rest) (he : resolve base model = .ok e)
    {n : Nat} (hn : 0 < n) :
    resolve (base ++ List.replicate n '/') model = .ok e ↔ trimEnd base = base := by
  obtain ⟨before, after, hbase, hbefore, hafter, hend⟩ := h.exists_blanks
  obtain ⟨n, rfl⟩ := Nat.exists_eq_succ_of_ne_zero (Nat.ne_of_gt hn)
  have hslashes : base ++ List.replicate (n + 1) '/' =
      before ++ (scheme ++ (schemeEnd ++ (rest ++ after ++ List.replicate (n + 1) '/')) ++ []) := by
    rw [hbase]
    simp only [List.append_assoc, List.append_nil]
  have hlast : ∀ c, (schemeEnd ++ (rest ++ after ++ List.replicate (n + 1) '/')).getLast? = some c →
      isBlank c = false := by
    intro c hc
    rw [List.replicate_succ', ← List.append_assoc, ← List.append_assoc, List.getLast?_concat] at hc
    cases hc
    decide
  have hhost : ∃ c ∈ rest ++ after ++ List.replicate (n + 1) '/', c ≠ '/' := by
    obtain ⟨c, hc, hne⟩ := h.host
    exact ⟨c, List.mem_append_left _ (List.mem_append_left _ hc), hne⟩
  have hnil : allBlank [] = true := rfl
  have hmore := isBase_between hbefore hnil h.web hlast hhost
  rw [← hslashes] at hmore
  rw [h.resolves] at he
  rw [hmore.resolves, (slashed_replicate _ _).segments_eq, ← he]
  constructor
  · intro hsame
    by_contra hchanged
    have hne : after ≠ [] := by
      rintro rfl
      rw [List.append_nil] at hbase
      exact hchanged (hend.trans hbase.symm)
    have hurl := congrArg Endpoint.url (Except.ok.inj hsame)
    exact address_blanks_ne (Format.ofModel model) hafter hne h.host hurl
  · intro hsame
    have hnil : after = [] := by
      rw [hend, hbase] at hsame
      exact List.append_right_eq_self.1 (List.append_cancel_left hsame).symm
    rw [hnil, List.append_nil]

/-- **Endpoints are canonical**. A text is resolved exactly if it is a base address: but for blanks
around it, a scheme of the web in either case, the mark, and a text that is not slashes alone. The
endpoint has the scheme and the first segment of the base address, no empty segment, and the route
at its end; its address is resolved to the same endpoint. Blanks around a base address do not count.
More slashes beside its slashes or at its end do not count either, unless they stand behind blanks:
these belong to the last segment then, and the endpoint is another one. -/
theorem resolve_canonical (base model : Text) :
    ((∃ e, resolve base model = .ok e) ↔ ∃ scheme rest, IsBase base scheme rest) ∧
      ∀ scheme rest e, IsBase base scheme rest → resolve base model = .ok e →
        IsCanonical model scheme rest e ∧
          (∀ before after, allBlank before = true → allBlank after = true →
            resolve (before ++ (base ++ after)) model = .ok e) ∧
          (∀ base' rest', trim base' = scheme ++ (schemeEnd ++ rest') →
            Slashed rest rest' ∨ Slashed rest' rest → resolve base' model = .ok e) ∧
          ∀ n, 0 < n →
            (resolve (base ++ List.replicate n '/') model = .ok e ↔ trimEnd base = base) := by
  constructor
  · constructor
    · rintro ⟨e, he⟩
      exact exists_isBase he
    · rintro ⟨scheme, rest, h⟩
      exact ⟨_, h.resolves model⟩
  · intro scheme rest e h he
    refine ⟨h.isCanonical he, ?_, ?_, fun n hn => h.resolve_slashes_iff he hn⟩
    · intro before after hbefore hafter
      have htrim : trim (before ++ (base ++ after)) = trim base := by
        rw [Text.trim_blanks hbefore]
        exact Text.trimWhere_append isBlank hafter base
      exact (h.resolve_congr (htrim.trans h.text) rfl model).trans he
    · intro base' rest' htext hslashed
      have hsegments : segments rest' = segments rest :=
        hslashed.elim Slashed.segments_eq fun hback => hback.segments_eq.symm
      exact (h.resolve_congr htext hsegments model).trans he

/-- A base address with blanks around it, a capital scheme, and more slashes than it needs. -/
def looseBase : Text :=
  "\u00a0 HTTPS:///Host//V1/\t\n".toList

theorem resolve_canonical_looseBase :
    resolve looseBase "gpt-4o".toList = .ok ⟨.openAi, "HTTPS://Host/V1/chat/completions".toList⟩ ∧
      resolve "HTTPS://Host/V1".toList "gpt-4o".toList =
        .ok ⟨.openAi, "HTTPS://Host/V1/chat/completions".toList⟩ ∧
      resolve ("\r".toList ++ (looseBase ++ " ".toList)) "gpt-4o".toList =
        .ok ⟨.openAi, "HTTPS://Host/V1/chat/completions".toList⟩ ∧
      resolve (looseBase ++ "//".toList) "gpt-4o".toList ≠
        .ok ⟨.openAi, "HTTPS://Host/V1/chat/completions".toList⟩ ∧
      IsCanonical "gpt-4o".toList "HTTPS".toList "/Host//V1/".toList
        ⟨.openAi, "HTTPS://Host/V1/chat/completions".toList⟩ := by
  have hbase : IsBase looseBase "HTTPS".toList "/Host//V1/".toList :=
    ⟨by decide +kernel, by decide, 'H', by decide, by decide⟩
  have he : resolve looseBase "gpt-4o".toList =
      .ok ⟨.openAi, "HTTPS://Host/V1/chat/completions".toList⟩ := by
    decide +kernel
  have hslashed : Slashed "Host/V1".toList "/Host//V1/".toList := by
    have hfront : Slashed "Host/V1".toList ([] ++ '/' :: "Host/V1".toList) :=
      .more (a := []) .refl (.front "Host/V1".toList)
    have hmiddle : Slashed "Host/V1".toList ("/Host".toList ++ '/' :: '/' :: "V1".toList) :=
      .more hfront (.before "/Host".toList "V1".toList)
    exact .more (a := "/Host//V1".toList) (b := []) hmiddle (.back "/Host//V1".toList)
  obtain ⟨hcanonical, hblanks, hslashes, hend⟩ :=
    (resolve_canonical looseBase "gpt-4o".toList).2 _ _ _ hbase he
  refine ⟨he, hslashes _ _ (by decide +kernel) (.inr hslashed), hblanks _ _ (by decide) (by decide),
    fun hsame => ?_, hcanonical⟩
  exact absurd ((hend 2 (by decide)).1 hsame) (by decide +kernel)

/-- A slash behind the blank at the end of a base address. -/
theorem resolve_slash_behind_blank :
    resolve "http://host ".toList "gpt-4o".toList =
        .ok ⟨.openAi, "http://host/v1/chat/completions".toList⟩ ∧
      resolve ("http://host ".toList ++ ['/']) "gpt-4o".toList =
        .ok ⟨.openAi, "http://host /v1/chat/completions".toList⟩ := by
  decide +kernel

/-! ## Base addresses with the version, with the route, or without -/

/-- A base address as it is written out: a scheme of the web, the mark, a host and the segments of a
path, with one slash between each two and no blanks around it. -/
structure IsPlainBase (base scheme host : Text) (path : List Text) : Prop where
  text : base = joined scheme (host :: path)
  web : IsWeb scheme
  segments : ∀ s ∈ host :: path, IsSegment s
  trimmed : trim base = base

/-- The version in an address. -/
def version : Text := "v1".toList

/-- A segment that is the version, in either case. -/
def IsVersion (s : Text) : Prop :=
  lowered s = version

instance : DecidablePred IsVersion := fun _ => inferInstanceAs (Decidable (_ = _))

theorem isVersion_iff : Text.sameLetters s version = true ↔ IsVersion s :=
  beq_iff_eq

/-- What a full address has behind the base address. -/
def fullEnd (format : Format) : Text :=
  '/' :: version ++ '/' :: format.route

/-- **The version and the route are missing exactly if neither is seen at the end**. -/
theorem completion_eq_fullEnd_iff (format : Format) (url : Text) (segs : List Text) :
    completion format.route url segs = fullEnd format ↔
      ¬ format.route <:+ url ∧ ∀ s, segs.getLast? = some s → ¬ IsVersion s := by
  have hlength : format.route.length < (fullEnd format).length - 1 := by
    cases format <;> decide
  have hlast : segs.getLast?.any (Text.sameLetters · version) = true ↔
      ∃ s, segs.getLast? = some s ∧ IsVersion s := by
    rw [Option.any_eq_true]
    exact exists_congr fun s => and_congr_right fun _ => isVersion_iff
  rw [completion]
  split
  · next h =>
    refine iff_of_false (fun hnil => ?_) fun hnot => hnot.1 (List.isSuffixOf_iff_suffix.1 h)
    rw [← hnil, List.length_nil] at hlength
    exact Nat.not_lt_zero _ hlength
  next h =>
    have hroute : ¬ format.route <:+ url := fun hsuffix => h (List.isSuffixOf_iff_suffix.2 hsuffix)
    split
    · next hv =>
      obtain ⟨s, hs, hversion⟩ := hlast.1 hv
      refine iff_of_false (fun hshort => ?_) fun hnot => hnot.2 s hs hversion
      rw [← hshort, List.length_cons, Nat.add_sub_cancel] at hlength
      exact Nat.lt_irrefl _ hlength
    · next hv =>
      exact iff_of_true rfl ⟨hroute, fun s hs hversion => hv (hlast.2 ⟨s, hs, hversion⟩)⟩

theorem fullEnd_eq (format : Format) :
    fullEnd format = '/' :: join ['/'] (version :: segments format.route) := by
  obtain ⟨hroute, hne, -⟩ := segments_route format
  rw [Text.join_cons hne, ← hroute]
  rfl

/-- Behind the version only the route is missing. -/
theorem completion_version {format : Format} (h : segs.getLast? = some version) (url : Text) :
    completion format.route (url ++ '/' :: version) segs = '/' :: format.route := by
  have hroute : ¬ format.route <:+ url ++ '/' :: version := by
    rintro ⟨front, he⟩
    have hlast := congrArg List.getLast? he
    have hletter : format.route.getLast? = some 's' := by cases format <;> rfl
    have hdigit : ('/' :: version).getLast? = some '1' := rfl
    rw [List.getLast?_append, List.getLast?_append, hletter, hdigit, Option.some_or,
      Option.some_or] at hlast
    exact absurd hlast (by decide)
  have hends : ¬ endsWith format.route (url ++ '/' :: version) = true := fun hsuffix =>
    hroute (List.isSuffixOf_iff_suffix.1 hsuffix)
  rw [completion, if_neg hends, h]
  rfl

namespace IsPlainBase

variable (h : IsPlainBase base scheme host path)

include h

theorem isBase : IsBase base scheme (join ['/'] (host :: path)) := by
  refine ⟨h.trimmed.trans h.text, h.web, segments_ne_nil_iff.1 ?_⟩
  rw [segments_join h.segments]
  exact List.cons_ne_nil host path

/-- **A plain base address and what it lacks**. -/
theorem resolves (model : Text) :
    resolve base model = .ok ⟨.ofModel model,
      base ++ completion (Format.ofModel model).route base (host :: path)⟩ := by
  rw [h.isBase.resolves, segments_join h.segments, address, ← h.text]

/-- A base address with further segments. -/
theorem extended {more : List Text} (hmore : ∀ s ∈ more, IsSegment s ∧ trimEnd s = s) (hne : more ≠ []) :
    IsPlainBase (base ++ '/' :: join ['/'] more) scheme host (path ++ more) := by
  have htext : base ++ '/' :: join ['/'] more = joined scheme (host :: path ++ more) := by
    rw [h.text, joined, joined, Text.join_append_join (List.cons_ne_nil host path) hne]
    simp only [List.append_assoc]
  have hlast : ∀ c, (base ++ '/' :: join ['/'] more).getLast? = some c → isBlank c = false := by
    obtain ⟨front, last, rfl⟩ := (List.eq_nil_or_concat more).resolve_left hne
    obtain ⟨⟨hsegment, -⟩, hend⟩ := hmore last (by simp)
    intro c hc
    have hjoin : ∃ lead, base ++ '/' :: join ['/'] (front ++ [last]) = lead ++ last := by
      cases front with
      | nil => exact ⟨base ++ ['/'], by rw [List.nil_append, Text.join_singleton]; simp⟩
      | cons s front =>
        refine ⟨base ++ '/' :: (join ['/'] (s :: front) ++ ['/']), ?_⟩
        rw [Text.join_append_join (List.cons_ne_nil s front) (List.cons_ne_nil last []),
          Text.join_singleton]
        simp
    obtain ⟨lead, hlead⟩ := hjoin
    rw [List.concat_eq_append, hlead, List.getLast?_append, List.getLast?_eq_some_getLast hsegment,
      Option.some_or] at hc
    exact Text.trimEnd_eq_self_iff.1 hend c ((List.getLast?_eq_some_getLast hsegment).trans hc)
  refine ⟨htext, h.web, ?_, ?_⟩
  · intro s hs
    rw [← List.cons_append] at hs
    exact (List.mem_append.1 hs).elim (h.segments s) fun hs => (hmore s hs).1
  · rw [htext] at hlast ⊢
    exact Text.trimWhere_eq_self (head_not_blank h.web _) hlast

end IsPlainBase

/-- **A base address may be given with the version, with the version and the route, or without**.
With either it always leads to the full address. Without, it does so exactly if the letters of the
route do not stand at its end, and the host is not a lone one that reads as the version. -/
theorem resolve_of_partial_base (h : IsPlainBase base scheme host path)
    (hpath : ∀ s, path.getLast? = some s → ¬ IsVersion s) (model : Text) :
    resolve (base ++ '/' :: version) model =
        .ok ⟨.ofModel model, base ++ fullEnd (Format.ofModel model)⟩ ∧
      resolve (base ++ fullEnd (Format.ofModel model)) model =
        .ok ⟨.ofModel model, base ++ fullEnd (Format.ofModel model)⟩ ∧
      (resolve base model = .ok ⟨.ofModel model, base ++ fullEnd (Format.ofModel model)⟩ ↔
        ¬ (Format.ofModel model).route <:+ base ∧ (path = [] → ¬ IsVersion host)) := by
  have hversion : ∀ s ∈ [version], IsSegment s ∧ trimEnd s = s := by decide
  have hfull : ∀ s ∈ version :: segments (Format.ofModel model).route,
      IsSegment s ∧ trimEnd s = s :=
    List.forall_mem_cons.2 ⟨by decide, (segments_route _).2.2⟩
  refine ⟨?_, ?_, ?_⟩
  · have hbase := h.extended hversion (List.cons_ne_nil _ _)
    rw [Text.join_singleton] at hbase
    rw [hbase.resolves, ← List.cons_append, completion_version List.getLast?_concat]
    simp only [fullEnd, List.append_assoc, List.cons_append]
  · have hbase := h.extended hfull (List.cons_ne_nil _ _)
    rw [← fullEnd_eq] at hbase
    rw [hbase.resolves, completion_of_suffix, List.append_nil]
    exact ⟨base ++ '/' :: version ++ ['/'], by simp [fullEnd]⟩
  · have hlast : (∀ s, (host :: path).getLast? = some s → ¬ IsVersion s) ↔
        (path = [] → ¬ IsVersion host) := by
      cases path with
      | nil => simp
      | cons s path => simpa using hpath
    rw [h.resolves, ← hlast, ← completion_eq_fullEnd_iff]
    constructor
    · intro he
      exact List.append_cancel_left (congrArg Endpoint.url (Except.ok.inj he))
    · intro he
      rw [he]

/-- A path that holds the version and the letters of the route, but ends with neither. -/
theorem resolve_of_partial_base_proxy :
    IsPlainBase "https://v1/V1/messages/x".toList "https".toList "v1".toList
        ["V1".toList, "messages".toList, "x".toList] ∧
      resolve "https://v1/V1/messages/x/v1".toList "Claude".toList =
        .ok ⟨.anthropic, "https://v1/V1/messages/x/v1/messages".toList⟩ ∧
      resolve "https://v1/V1/messages/x/v1/messages".toList "Claude".toList =
        .ok ⟨.anthropic, "https://v1/V1/messages/x/v1/messages".toList⟩ ∧
      resolve "https://v1/V1/messages/x".toList "Claude".toList =
        .ok ⟨.anthropic, "https://v1/V1/messages/x/v1/messages".toList⟩ := by
  have hbase : IsPlainBase "https://v1/V1/messages/x".toList "https".toList "v1".toList
      ["V1".toList, "messages".toList, "x".toList] :=
    ⟨by decide +kernel, by decide, by decide, by decide +kernel⟩
  obtain ⟨hversion, hfull, hplain⟩ :=
    resolve_of_partial_base hbase (by decide) "Claude".toList
  exact ⟨hbase, hversion, hfull, hplain.2 ⟨by decide +kernel, by decide⟩⟩

/-- A host that ends with the letters of the route, and one that reads as the version: the base
addresses are not completed as they are with the version behind them. -/
theorem resolve_host_like_route :
    IsPlainBase "https://mymessages".toList "https".toList "mymessages".toList [] ∧
      resolve "https://mymessages".toList "claude-3-opus".toList =
        .ok ⟨.anthropic, "https://mymessages".toList⟩ ∧
      resolve "https://mymessages/v1".toList "claude-3-opus".toList =
        .ok ⟨.anthropic, "https://mymessages/v1/messages".toList⟩ ∧
      IsPlainBase "http://v1".toList "http".toList "v1".toList [] ∧
      resolve "http://v1".toList "gpt-4o".toList =
        .ok ⟨.openAi, "http://v1/chat/completions".toList⟩ ∧
      resolve "http://v1/v1".toList "gpt-4o".toList =
        .ok ⟨.openAi, "http://v1/v1/chat/completions".toList⟩ := by
  refine ⟨⟨by decide +kernel, by decide, by decide, by decide +kernel⟩, ?_, ?_,
    ⟨by decide +kernel, by decide, by decide, by decide +kernel⟩, ?_, ?_⟩ <;> decide +kernel

end Scholia.Model.Endpoint
