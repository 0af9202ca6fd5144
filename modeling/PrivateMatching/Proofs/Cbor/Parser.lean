import Mathlib.Data.Option.Basic
import PrivateMatching.Proofs.Cbor.Head

/-!
# Nothing behind an item is looked at

Reading an item of a longer string gives the same item, and leaves what the string
is longer by (`Item.extends_parse`). This goes through the parts of an item: strings
in chunks (`extends_parseChunks`), parts up to a stop (`Extends.parseToStop`), tags
(`parseTags_append`), and what is behind the head (`Item.extends_parseBody`). The
limits on the number of parts may grow with the string on the way.
-/

namespace PrivateMatching

namespace Cbor

variable {α : Type} {p q : Reader α} {limit limit' : ℕ} {major : Major}

/-! ## Parts up to a stop -/

/-- A reader takes nothing off a string with a stop in front. -/
def RefusesStop (p : Reader α) : Prop :=
  ∀ ⦃input rest⦄, Head.parse input = some (.stop, rest) → p input = none

theorem RefusesStop.parsePair (h : RefusesStop p) : RefusesStop (parsePair p) := by
  intro input rest hstop
  rw [Cbor.parsePair, h hstop]

/-- What a reader that refuses stops takes off is at least one byte. -/
theorem Reads.length_pos {bytes stop : Bytes} {value : α} (h : Reads p bytes value)
    (hp : RefusesStop p) (hstop : Reads Head.parse stop .stop) : 0 < bytes.length := by
  rcases bytes with _ | ⟨first, bytes⟩
  · have hnone := hp (hstop [])
    rw [List.append_nil, ← List.nil_append stop, h stop] at hnone
    cases hnone
  · exact Nat.succ_pos _

theorem parseToStop_of_stop {input rest : Bytes} (h : Head.parse input = some (.stop, rest)) :
    parseToStop p (limit + 1) input = some ([], rest) := by
  rw [parseToStop, h]

theorem parseToStop_of_ne {input : Bytes} (h : ∀ rest, Head.parse input ≠ some (.stop, rest)) :
    parseToStop p (limit + 1) input =
      andThen p (fun value => andThen (parseToStop p limit) fun values =>
        give (some (value :: values))) input := by
  rw [parseToStop, andThen]
  split
  next rest hstop => exact absurd hstop (h rest)
  next =>
    cases p input with
    | none => rfl
    | some r =>
      dsimp only
      rw [andThen_give_some]
      cases parseToStop p limit r.2 <;> rfl

/-- One more part is read in front of what is read up to a stop. -/
theorem Reads.parseToStop_cons {front bytes : Bytes} {value : α} {values : List α}
    (h : Reads p front value) (hp : RefusesStop p)
    (hrest : Reads (parseToStop p limit) bytes values) :
    Reads (parseToStop p (limit + 1)) (front ++ bytes) (value :: values) := by
  have hall : Reads (Cbor.andThen p fun value =>
      Cbor.andThen (Cbor.parseToStop p limit) fun values => give (some (value :: values)))
      (front ++ bytes) (value :: values) := h.andThen (hrest.andThen_give rfl)
  intro rest
  -- The part is read there, so no stop is there.
  have hne : ∀ rest', Head.parse (front ++ bytes ++ rest) ≠ some (.stop, rest') := by
    intro rest' hstop
    have hnone := hp hstop
    rw [List.append_assoc, h] at hnone
    cases hnone
  rw [parseToStop_of_ne hne]
  exact hall rest

/-- Parts that are read are read up to a stop, within a limit that their bytes are
    below. -/
theorem Reads.parseToStop {ι : Type} {parts : List ι} {bytes : ι → Bytes} {value : ι → α}
    {stop : Bytes} (h : ∀ part ∈ parts, Reads p (bytes part) (value part))
    (hstop : Reads Head.parse stop .stop) (hp : RefusesStop p)
    (hlimit : (parts.flatMap bytes).length < limit) :
    Reads (parseToStop p limit) (parts.flatMap bytes ++ stop) (parts.map value) := by
  obtain ⟨limit, rfl⟩ : ∃ n, limit = n + 1 := ⟨limit - 1, by omega⟩
  induction parts generalizing limit with
  | nil => exact fun rest => parseToStop_of_stop (hstop rest)
  | cons part parts ih =>
    obtain ⟨hpart, hparts⟩ := List.forall_mem_cons.1 h
    have hpos := hpart.length_pos hp hstop
    rw [List.flatMap_cons, List.length_append] at hlimit
    obtain ⟨limit, rfl⟩ : ∃ n, limit = n + 1 := ⟨limit - 1, by omega⟩
    rw [List.flatMap_cons, List.append_assoc]
    exact hpart.parseToStop_cons hp (ih hparts limit (by omega))

theorem Extends.parseToStop (h : Extends p q) (hq : RefusesStop q) (hlimit : limit ≤ limit') :
    Extends (parseToStop p limit) (parseToStop q limit') := by
  induction limit generalizing limit' with
  | zero => exact fun input values rest hread => by cases hread
  | succ limit ih =>
    obtain _ | limit' := limit'
    · cases hlimit
    intro input values rest hread more
    by_cases hstop : ∃ rest, Head.parse input = some (.stop, rest)
    · obtain ⟨rest, hstop⟩ := hstop
      rw [parseToStop_of_stop hstop] at hread
      cases hread
      exact parseToStop_of_stop (Head.extends_parse hstop more)
    · rw [parseToStop_of_ne fun rest hstop' => hstop ⟨rest, hstop'⟩] at hread
      -- A value is read in front of the longer string, so no stop is there.
      have hne : ∀ rest, Head.parse (input ++ more) ≠ some (.stop, rest) := by
        intro rest hstop'
        obtain ⟨value, rest', hvalue, _⟩ := andThen_eq_some hread
        have hnone := hq hstop'
        rw [h hvalue more] at hnone
        cases hnone
      rw [parseToStop_of_ne hne]
      have hrest := ih (Nat.le_of_succ_le_succ hlimit)
      exact (h.andThen fun value => hrest.andThen_give fun values => some (value :: values))
        hread more

/-! ## Chunks -/

/-- What is read behind the head of a chunk, of a group of chunks or of the stop
    behind them. -/
def chunksBehind (major : Major) (limit groups : ℕ) : Head → Reader (List Bytes)
  | .sized inner _ count =>
    if inner = major then
      andThen (Bytes.splitAt? count) fun chunk =>
        andThen (parseChunks major limit groups) fun chunks => give (some (chunk :: chunks))
    else
      give none
  | .endless inner => if inner = major then parseChunks major limit (groups + 1) else give none
  | .stop =>
    match groups with
    | 0 => give (some [])
    | groups + 1 => parseChunks major limit groups

theorem parseChunks_succ (major : Major) (limit groups : ℕ) :
    parseChunks major (limit + 1) groups =
      andThen Head.parse (chunksBehind major limit groups) := by
  funext input
  rw [parseChunks, andThen]
  rcases Head.parse input with _ | ⟨⟨inner, width, count⟩ | inner | _, rest⟩
  · rfl
  · dsimp only [chunksBehind]
    split
    next =>
      rw [andThen]
      cases Bytes.splitAt? count rest with
      | none => rfl
      | some r =>
        dsimp only
        rw [andThen_give_some]
        cases parseChunks major limit groups r.2 <;> rfl
    next => rfl
  · dsimp only [chunksBehind]
    split <;> rfl
  · cases groups <;> rfl

theorem extends_parseChunks (major : Major) (hlimit : limit ≤ limit') (groups : ℕ) :
    Extends (parseChunks major limit groups) (parseChunks major limit' groups) := by
  induction limit generalizing limit' groups with
  | zero => exact fun input values rest hread => by cases hread
  | succ limit ih =>
    obtain _ | limit' := limit'
    · cases hlimit
    have hrest := ih (Nat.le_of_succ_le_succ hlimit)
    rw [parseChunks_succ, parseChunks_succ]
    refine Head.extends_parse.andThen fun head => ?_
    rcases head with ⟨inner, width, count⟩ | inner | _
    · dsimp only [chunksBehind]
      split
      · exact (extends_splitAt? count).andThen fun chunk =>
          (hrest groups).andThen_give fun chunks => some (chunk :: chunks)
      · exact extends_give none
    · dsimp only [chunksBehind]
      split
      · exact hrest (groups + 1)
      · exact extends_give none
    · cases groups with
      | zero => exact extends_give (some [])
      | succ groups => exact hrest groups

/-! ## Tags -/

/-- The tag that a head is of, if it is one. -/
def Head.tag? : Head → Option UInt64
  | .sized .tag _ tag => some (UInt64.ofNat tag)
  | _ => none

theorem parseTags_of_tag {input rest : Bytes} {head : Head} {tag : UInt64}
    (h : Head.parse input = some (head, rest)) (htag : head.tag? = some tag) (limit : ℕ) :
    parseTags (limit + 1) input = (tag :: (parseTags limit rest).1, (parseTags limit rest).2) := by
  rw [parseTags, h]
  unfold Head.tag? at htag
  split at htag <;> cases htag
  rfl

theorem parseTags_of_ne {input rest : Bytes} {head : Head}
    (h : Head.parse input = some (head, rest)) (htag : head.tag? = none) (limit : ℕ) :
    parseTags limit input = ([], input) := by
  cases limit with
  | zero => rfl
  | succ limit =>
    rw [parseTags, h]
    split
    next heq =>
      cases heq
      cases htag
    next => rfl

/-- Where a head that is no tag is behind some tags, more input does not add to them. -/
theorem parseTags_append {input rest : Bytes} {head : Head}
    (h : Head.parse (parseTags limit input).2 = some (head, rest)) (htag : head.tag? = none)
    (hlimit : limit ≤ limit') (more : Bytes) :
    parseTags limit' (input ++ more) =
      ((parseTags limit input).1, (parseTags limit input).2 ++ more) := by
  induction limit generalizing limit' input with
  | zero => exact parseTags_of_ne (Head.extends_parse h more) htag limit'
  | succ limit ih =>
    obtain _ | limit' := limit'
    · cases hlimit
    rcases hfirst : Head.parse input with _ | ⟨first, behind⟩
    · rw [parseTags, hfirst] at h
      rw [hfirst] at h
      cases h
    · cases hfirsttag : first.tag? with
      | none =>
        rw [parseTags_of_ne hfirst hfirsttag,
          parseTags_of_ne (Head.extends_parse hfirst more) hfirsttag]
      | some tag =>
        rw [parseTags_of_tag hfirst hfirsttag] at h ⊢
        rw [parseTags_of_tag (Head.extends_parse hfirst more) hfirsttag,
          ih h (Nat.le_of_succ_le_succ hlimit)]

namespace Item

/-! ## Items -/

/-- How the items inside an item are read in two strings: not at all, or by readers
    of which the second extends the first. -/
abbrev NestedExtends : (nested nested' : Option (Reader Item)) → Prop :=
  Option.Rel fun p q => Extends p q ∧ RefusesStop q

variable {nested nested' : Option (Reader Item)}

theorem parseBody_text (limit : ℕ) (nested : Option (Reader Item)) (width count : ℕ) :
    parseBody limit nested (.sized .text width count) =
      andThen (Bytes.splitAt? count) fun value =>
        give ((Bytes.toText? value).map (.text .whole)) := by
  funext rest
  rw [parseBody, andThen]
  cases Bytes.splitAt? count rest with
  | none => rfl
  | some r =>
    dsimp only
    cases Bytes.toText? r.1 <;> rfl

theorem parseBody_text_chunked (limit : ℕ) (nested : Option (Reader Item)) :
    parseBody limit nested (.endless .text) =
      andThen (parseChunks .text limit 0) fun chunks =>
        give ((textOfChunks? chunks).map (.text .chunked)) := by
  funext rest
  rw [parseBody, andThen]
  cases parseChunks .text limit 0 rest with
  | none => rfl
  | some r =>
    dsimp only
    cases textOfChunks? r.1 <;> rfl

theorem extends_parseBody (hlimit : limit ≤ limit') (hnested : NestedExtends nested nested')
    (head : Head) : Extends (parseBody limit nested head) (parseBody limit' nested' head) := by
  intro input item rest h more
  rcases head with ⟨major, width, n⟩ | major | _
  · cases major with
    | unsigned =>
      cases h
      rfl
    | negative =>
      cases h
      rfl
    | bytes => exact (extends_splitAt? n).map (Item.bytes .whole) h more
    | text =>
      rw [parseBody_text] at h ⊢
      exact (extends_splitAt? n).andThen_give _ h more
    | array =>
      cases hnested with
      | none => cases h
      | some hpq => exact (hpq.1.parseMany n).map Item.array h more
    | map =>
      cases hnested with
      | none => cases h
      | some hpq => exact (hpq.1.parsePair.parseMany n).map Item.map h more
    | tag => cases h
    | other => exact extends_give (ofOther? width n) h more
  · cases major with
    | bytes =>
      exact (extends_parseChunks .bytes hlimit 0).map
        (fun chunks => Item.bytes .chunked chunks.flatten) h more
    | text =>
      rw [parseBody_text_chunked] at h ⊢
      exact (extends_parseChunks .text hlimit 0).andThen_give _ h more
    | array =>
      cases hnested with
      | none => cases h
      | some hpq => exact (hpq.1.parseToStop hpq.2 hlimit).map Item.array h more
    | map =>
      cases hnested with
      | none => cases h
      | some hpq => exact (hpq.1.parsePair.parseToStop hpq.2.parsePair hlimit).map Item.map h more
    | _ => cases h
  · cases h

/-- A tag has no body. -/
theorem tag?_of_parseBody {head : Head} {input rest : Bytes} {item : Item}
    (h : parseBody limit nested head input = some (item, rest)) : head.tag? = none := by
  rcases head with ⟨major, width, n⟩ | major | _
  · cases major with
    | tag => cases h
    | _ => rfl
  · rfl
  · rfl

/-- An item with tags is read as the tags, and what is behind the next head. -/
theorem parseTagged_eq_some {input rest : Bytes} {item : Item}
    (h : parseTagged limit nested input = some (item, rest)) :
    ∃ head behind body, Head.parse (parseTags limit input).2 = some (head, behind) ∧
      parseBody limit nested head behind = some (body, rest) ∧
      item = (parseTags limit input).1.foldr .tagged body := by
  rw [parseTagged] at h
  rcases hhead : Head.parse (parseTags limit input).2 with _ | ⟨head, behind⟩
  · simp [hhead] at h
  · simp only [hhead, Option.map_eq_some_iff, Prod.mk.injEq] at h
    obtain ⟨⟨body, rest⟩, hbody, rfl, rfl⟩ := h
    exact ⟨head, behind, body, rfl, hbody, rfl⟩

theorem parseTagged_of_parseTags {input behind bytes rest : Bytes} {tags : List UInt64}
    {head : Head} {body : Item} (htags : parseTags limit input = (tags, behind))
    (hhead : Head.parse behind = some (head, bytes))
    (hbody : parseBody limit nested head bytes = some (body, rest)) :
    parseTagged limit nested input = some (tags.foldr .tagged body, rest) := by
  rw [parseTagged]
  simp only [htags, hhead, hbody, Option.map_some]

theorem refusesStop_parseTagged (limit : ℕ) (nested : Option (Reader Item)) :
    RefusesStop (parseTagged limit nested) := by
  intro input rest h
  rw [parseTagged, parseTags_of_ne h rfl]
  simp only [h]
  rfl

theorem extends_parseTagged (hlimit : limit ≤ limit') (hnested : NestedExtends nested nested') :
    Extends (parseTagged limit nested) (parseTagged limit' nested') := by
  intro input item rest h more
  obtain ⟨head, behind, body, hhead, hbody, rfl⟩ := parseTagged_eq_some h
  have htags := parseTags_append hhead (tag?_of_parseBody hbody) hlimit more
  exact parseTagged_of_parseTags htags (Head.extends_parse hhead more)
    (extends_parseBody hlimit hnested head hbody more)

/-- How the items inside an item are read that may nest to some levels. -/
def nestedWithin (limit : ℕ) : (levels : ℕ) → Option (Reader Item)
  | 0 => none
  | levels + 1 => some (parseWithin limit levels)

theorem parseWithin_eq (limit levels : ℕ) :
    parseWithin limit levels = parseTagged limit (nestedWithin limit levels) := by
  funext input
  cases levels <;> rfl

theorem refusesStop_parseWithin (limit levels : ℕ) : RefusesStop (parseWithin limit levels) := by
  rw [parseWithin_eq]
  exact refusesStop_parseTagged limit _

/-- A greater limit reads the same of a longer string, whatever the levels are. -/
theorem extends_parseWithin (hlimit : limit ≤ limit') (levels : ℕ) :
    Extends (parseWithin limit levels) (parseWithin limit' levels) := by
  induction levels with
  | zero =>
    rw [parseWithin_eq, parseWithin_eq]
    exact extends_parseTagged hlimit .none
  | succ levels ih =>
    rw [parseWithin_eq, parseWithin_eq]
    exact extends_parseTagged hlimit (.some ⟨ih, refusesStop_parseWithin limit' levels⟩)

theorem nestedExtends_nestedWithin (hlimit : limit ≤ limit') (levels : ℕ) :
    NestedExtends (nestedWithin limit levels) (nestedWithin limit' levels) := by
  cases levels with
  | zero => exact .none
  | succ levels =>
    exact .some ⟨extends_parseWithin hlimit levels, refusesStop_parseWithin limit' levels⟩

/-- A tag is read in front of an item, if the limit allows for one more. -/
theorem parseWithin_of_tag {input bytes rest : Bytes} {head : Head} {tag : UInt64} {item : Item}
    {levels : ℕ} (hhead : Head.parse input = some (head, bytes)) (htag : head.tag? = some tag)
    (hitem : parseWithin limit levels bytes = some (item, rest)) (hlimit : limit < limit') :
    parseWithin limit' levels input = some (.tagged tag item, rest) := by
  obtain ⟨limit', rfl⟩ : ∃ n, limit' = n + 1 := ⟨limit' - 1, by omega⟩
  rw [parseWithin_eq] at hitem ⊢
  obtain ⟨next, behind, body, hnext, hbody, rfl⟩ := parseTagged_eq_some hitem
  -- The other tags and the body are read within the greater limit as well.
  have htags := parseTags_append hnext (tag?_of_parseBody hbody) (Nat.le_of_lt_succ hlimit) []
  have hbody' := extends_parseBody hlimit.le (nestedExtends_nestedWithin hlimit.le levels) next
    hbody []
  rw [List.append_nil, List.append_nil] at htags hbody'
  have hall := parseTags_of_tag hhead htag limit'
  rw [htags] at hall
  exact parseTagged_of_parseTags hall hnext hbody'

/-- Nothing behind an item is looked at. -/
theorem extends_parse (levels : ℕ) : Extends (parse levels) (parse levels) := by
  intro input item rest h more
  have hlimit : input.length ≤ (input ++ more).length := by simp
  exact extends_parseWithin hlimit levels h more

end Item

end Cbor

end PrivateMatching
