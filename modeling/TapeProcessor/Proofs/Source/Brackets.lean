import TapeProcessor.Proofs.Source.Walk

/-!
# The brackets of a source text

What it means that the brackets of a text are balanced and that two of them are
partners, with no reader and no tree.

* `Source.Balanced text`: there are as many closing brackets as opening ones, and
  among any first characters no more. `Source.Paired text j i`: the brackets at `j`
  and `i` are an opening and a closing one with balanced brackets between them.
* `Source.openBefore text i` is the stack of a scan from left to right: the positions
  of the brackets that are open in front of position `i`, the innermost first.

Two descriptions of balanced texts are tied to this one. A text is balanced exactly if
its operations are those of a tree (`Source.balanced_iff`): the operations from any
place on are those of a `Site`, with as many loops around it as brackets are open. And
the scan finds the partners (`Source.paired_iff`): the bracket on top of the stack at a
closing bracket is its partner, in any text.
-/

namespace TapeProcessor

/-! ### Counting the brackets of a tree -/

/-- The operations of a tree have as many closing brackets as opening ones. -/
theorem Program.count_opcodes (p : Program) : p.opcodes.count .jmp = p.opcodes.count .jz := by
  induction p with
  | done => rfl
  | plain c next ih => simpa [opcodes] using ih
  | loop body next ih_body ih =>
    simp [opcodes, ih_body, ih]
    omega

/-- Behind a site stand one closing bracket for each loop around it and otherwise
pairs. -/
theorem Site.count_rest (f : Site) : f.rest.count .jmp = f.rest.count .jz + f.outer.length := by
  obtain ⟨here, outer⟩ := f
  induction outer generalizing here with
  | nil => simpa [rest, restBehind] using here.count_opcodes
  | cons loop outer ih =>
    have h_here := here.count_opcodes
    have h_next := ih loop.2
    -- the loop adds the closing bracket behind the body, which no opening one in the rest matches
    simp only [rest, restBehind, List.count_append, List.count_cons_self,
      List.count_cons_of_ne (show Opcode.jmp ≠ .jz by decide), List.length_cons] at h_next ⊢
    omega

namespace Source

/-! ### Balanced brackets and partners -/

/-- The number of words of the operations of a text: one for each command and two for
each bracket. -/
def size (text : List Char) : ℕ := Opcode.wordCount (operations text)

/-- The brackets of the text are balanced. -/
structure Balanced (text : List Char) : Prop where
  /-- As many are closed as are opened. -/
  closed : text.count ']' = text.count '['
  /-- None is closed before it was opened. -/
  opened : ∀ n, (text.take n).count ']' ≤ (text.take n).count '['

/-- The characters between two positions. -/
def between (text : List Char) (j i : ℕ) : List Char := (text.take i).drop (j + 1)

/-- The bracket at position `i` closes the one at position `j`. -/
structure Paired (text : List Char) (j i : ℕ) : Prop where
  lt : j < i
  opening : text[j]? = some '['
  closing : text[i]? = some ']'
  balanced : Balanced (between text j i)

/-- The positions of the brackets that a scan has open in front of a position, the
innermost first. A closing bracket with nothing open leaves nothing open. -/
def openBefore (text : List Char) : ℕ → List ℕ
  | 0 => []
  | i + 1 =>
    match opcodeAt? text i with
    | some .jz => i :: openBefore text i
    | some .jmp => (openBefore text i).tail
    | _ => openBefore text i

/-- The positions of a text from one on. -/
def positionsFrom (text : List Char) (i : ℕ) : List ℕ := List.range' i (text.length - i)

/-- In front of the last bracket of `a[+[-]]` the outer pair is open, the inner one
closed. -/
example : openBefore "a[+[-]]".toList 6 = [1] ∧ openBefore "a[+[-]]".toList 5 = [3, 1] := by
  decide

variable {text l m : List Char} {i j k : ℕ}

/-- An operation stands where its symbol does. -/
theorem opcodeAt?_eq_some_iff {op : Opcode} :
    opcodeAt? text i = some op ↔ text[i]? = some op.symbol := by
  rw [opcodeAt?, Option.bind_eq_some_iff]
  constructor
  · rintro ⟨c, h_char, h_op⟩
    rw [h_char, Opcode.ofSymbol?_eq_some_iff.mp h_op]
  · intro h_char
    exact ⟨_, h_char, Opcode.ofSymbol?_symbol op⟩

theorem lt_of_opcodeAt? {op : Opcode} (h : opcodeAt? text i = some op) : i < text.length :=
  (List.getElem?_eq_some_iff.mp (opcodeAt?_eq_some_iff.mp h)).1

theorem positionsFrom_of_lt (h : i < text.length) :
    positionsFrom text i = i :: positionsFrom text (i + 1) := by
  have h_count : text.length - i = text.length - (i + 1) + 1 := by omega
  rw [positionsFrom, h_count, List.range'_succ, positionsFrom]

theorem positionsFrom_length (text : List Char) : positionsFrom text text.length = [] := by
  rw [positionsFrom, Nat.sub_self]
  rfl

theorem openBefore_jz (h : opcodeAt? text i = some .jz) :
    openBefore text (i + 1) = i :: openBefore text i := by
  rw [openBefore, h]

theorem openBefore_jmp (h : opcodeAt? text i = some .jmp) :
    openBefore text (i + 1) = (openBefore text i).tail := by
  rw [openBefore, h]

theorem openBefore_other (h_open : opcodeAt? text i ≠ some .jz)
    (h_close : opcodeAt? text i ≠ some .jmp) : openBefore text (i + 1) = openBefore text i := by
  rw [openBefore]
  split
  · exact absurd ‹_› h_open
  · exact absurd ‹_› h_close
  · rfl

/-! ### Building balanced texts -/

theorem Balanced.nil : Balanced [] := ⟨rfl, by simp⟩

theorem Balanced.append (hl : Balanced l) (hm : Balanced m) : Balanced (l ++ m) := by
  constructor
  · rw [List.count_append, List.count_append, hl.closed, hm.closed]
  · intro n
    have h_left := hl.opened n
    -- the first characters reach into the second text or they do not
    have h_right := hm.opened (n - l.length)
    rw [List.take_append, List.count_append, List.count_append]
    omega

theorem Balanced.singleton {c : Char} (h_open : c ≠ '[') (h_close : c ≠ ']') : Balanced [c] := by
  constructor
  · rw [List.count_singleton, List.count_singleton]
    simp [h_open, h_close]
  · intro n
    cases n with
    | zero => exact Nat.le_refl 0
    | succ n => simp [h_open, h_close]

theorem Balanced.enclose (h : Balanced l) : Balanced ('[' :: (l ++ [']'])) := by
  constructor
  · have h_closed := h.closed
    simp [h_closed]
  · intro n
    cases n with
    | zero => exact Nat.le_refl 0
    | succ n =>
      -- the first bracket pays for the last one
      have h_inner := h.opened n
      have h_last : ([']'].take (n - l.length)).count ']' ≤ 1 :=
        (List.take_sublist _ _).count_le ']'
      rw [List.take_succ_cons, List.count_cons_self, List.count_cons_of_ne (by decide),
        List.take_append, List.count_append, List.count_append]
      omega

theorem between_succ (h_lt : j < i) (h_in : j < text.length) :
    between text j (i + 1) = between text j i ++ text[i]?.toList := by
  rw [between, List.take_add_one, List.drop_append_of_le_length, between]
  rw [List.length_take]
  omega

theorem between_self (text : List Char) (i : ℕ) : between text i (i + 1) = [] := by
  rw [between, List.drop_eq_nil_iff, List.length_take]
  omega

/-- The characters between two positions, split at a third one. -/
theorem between_split {c : Char} (h_jk : j < k) (h_ki : k < i) (h_c : text[k]? = some c) :
    between text j i = between text j k ++ c :: between text k i := by
  obtain ⟨h_lt, rfl⟩ := List.getElem?_eq_some_iff.mp h_c
  induction i with
  | zero => exact absurd h_ki (Nat.not_lt_zero k)
  | succ i ih =>
    rw [between_succ (by omega) (by omega)]
    by_cases h_eq : k = i
    · subst h_eq
      rw [between_self, h_c]
      rfl
    · rw [ih (by omega), between_succ (by omega) h_lt, List.append_assoc, List.cons_append]

/-! ### The scan finds the partners -/

/-- **What is on top of the stack** is an opening bracket; below it is what was open in
front of it, and the brackets behind it are balanced. -/
theorem openBefore_eq_cons {st : List ℕ} (h : openBefore text i = j :: st) :
    j < i ∧ text[j]? = some '[' ∧ st = openBefore text j ∧ Balanced (between text j i) := by
  -- a closing bracket uncovers an entry that was made long before, so the induction is
  -- on all smaller positions
  induction i using Nat.strong_induction_on generalizing j st with
  | _ i ih =>
    cases i with
    | zero => cases h
    | succ i =>
      by_cases h_jz : opcodeAt? text i = some .jz
      · rw [openBefore_jz h_jz] at h
        -- the bracket itself is on top, with nothing behind it yet
        obtain ⟨rfl, rfl⟩ := List.cons.inj h
        refine ⟨Nat.lt_succ_self _, opcodeAt?_eq_some_iff.mp h_jz, rfl, ?_⟩
        rw [between_self]
        exact .nil
      · by_cases h_jmp : opcodeAt? text i = some .jmp
        · -- the entry that the bracket takes off, and the one below it
          rw [openBefore_jmp h_jmp] at h
          obtain ⟨k, h_top⟩ : ∃ k, openBefore text i = k :: j :: st := by
            cases h_st : openBefore text i with
            | nil => rw [h_st] at h; cases h
            | cons k rest => rw [h_st] at h; exact ⟨k, congrArg _ h⟩
          obtain ⟨h_ki, h_k, h_rest, h_inner⟩ := ih i (Nat.lt_succ_self i) h_top
          obtain ⟨h_jk, h_j, h_st, h_before⟩ := ih k (by omega) h_rest.symm
          have h_in := (List.getElem?_eq_some_iff.mp h_j).1
          refine ⟨by omega, h_j, h_st, ?_⟩
          rw [between_succ (by omega) h_in, opcodeAt?_eq_some_iff.mp h_jmp,
            between_split h_jk h_ki h_k, List.append_assoc, List.cons_append]
          exact h_before.append h_inner.enclose
        · rw [openBefore_other h_jz h_jmp] at h
          obtain ⟨h_lt, h_j, h_st, h_inner⟩ := ih i (Nat.lt_succ_self i) h
          have h_in := (List.getElem?_eq_some_iff.mp h_j).1
          refine ⟨by omega, h_j, h_st, ?_⟩
          rw [between_succ h_lt h_in]
          cases h_c : text[i]? with
          | none => simpa using h_inner
          | some c =>
            rw [opcodeAt?_eq_some_iff, h_c] at h_jz h_jmp
            refine h_inner.append (.singleton ?_ ?_)
            · rintro rfl
              exact h_jz rfl
            · rintro rfl
              exact h_jmp rfl

/-- **Scanning on.** As long as no more brackets are closed behind a position than were
opened behind it, what was open at the position stays on the stack, below as many
brackets as were opened and not closed since. -/
theorem openBefore_add (text : List Char) (i m : ℕ)
    (h : ∀ n, n ≤ m → ((text.drop i).take n).count ']' ≤ ((text.drop i).take n).count '[') :
    ∃ since, openBefore text (i + m) = since ++ openBefore text i ∧
      since.length + ((text.drop i).take m).count ']' = ((text.drop i).take m).count '[' := by
  induction m with
  | zero => exact ⟨[], rfl, by simp⟩
  | succ m ih =>
    obtain ⟨since, h_open, h_count⟩ := ih fun n hn => h n (by omega)
    have h_next := h (m + 1) (Nat.le_refl _)
    rw [List.take_add_one, List.getElem?_drop, List.count_append, List.count_append] at h_next ⊢
    rw [← Nat.add_assoc]
    by_cases h_jz : opcodeAt? text (i + m) = some .jz
    · refine ⟨(i + m) :: since, by rw [openBefore_jz h_jz, h_open, List.cons_append], ?_⟩
      rw [opcodeAt?_eq_some_iff.mp h_jz]
      simp [Opcode.symbol]
      omega
    · by_cases h_jmp : opcodeAt? text (i + m) = some .jmp
      · rw [opcodeAt?_eq_some_iff.mp h_jmp] at h_next ⊢
        simp only [Opcode.symbol, Option.toList_some, List.count_singleton_self,
          List.count_singleton, beq_iff_eq, Char.reduceEq, if_false] at h_next ⊢
        -- the bracket closes one of those that were opened since
        cases since with
        | nil => simp at h_count; omega
        | cons top since =>
          refine ⟨since, by rw [openBefore_jmp h_jmp, h_open, List.cons_append, List.tail_cons], ?_⟩
          rw [List.length_cons] at h_count
          omega
      · refine ⟨since, by rw [openBefore_other h_jz h_jmp, h_open], ?_⟩
        cases h_c : text[i + m]? with
        | none => simpa using h_count
        | some c =>
          rw [opcodeAt?_eq_some_iff, h_c, Option.some.injEq] at h_jz h_jmp
          change c ≠ '[' at h_jz
          change c ≠ ']' at h_jmp
          simpa [h_jz, h_jmp] using h_count

/-- In a balanced text as many brackets are open as were opened and not closed. -/
theorem Balanced.length_openBefore (h : Balanced text) (i : ℕ) :
    (openBefore text i).length + (text.take i).count ']' = (text.take i).count '[' := by
  obtain ⟨since, h_open, h_count⟩ := openBefore_add text 0 i fun n _ => by
    rw [List.drop_zero]
    exact h.opened n
  rw [Nat.zero_add, openBefore, List.append_nil] at h_open
  rw [h_open]
  exact h_count

/-- At the end of a balanced text no bracket is open. -/
theorem Balanced.openBefore_length (h : Balanced text) : openBefore text text.length = [] := by
  have h_count := h.length_openBefore text.length
  have h_closed := h.closed
  rw [List.take_length] at h_count
  exact List.eq_nil_iff_length_eq_zero.mpr (by omega)

/-- In a balanced text a closing bracket finds an open one. -/
theorem Balanced.openBefore_ne_nil (h : Balanced text) (h_close : text[i]? = some ']') :
    openBefore text i ≠ [] := by
  intro h_nil
  have h_count := h.length_openBefore i
  have h_opened := h.opened (i + 1)
  rw [List.take_add_one, h_close, Option.toList_some, List.count_append, List.count_append,
    List.count_singleton_self, List.count_singleton, if_neg (by decide)] at h_opened
  rw [h_nil, List.length_nil] at h_count
  omega

/-- **The bracket that a closing one finds on the stack is its partner.** -/
theorem paired_iff :
    Paired text j i ↔ text[i]? = some ']' ∧ openBefore text i = j :: openBefore text j := by
  constructor
  · intro h
    refine ⟨h.closing, ?_⟩
    -- what is between the two leaves the stack as it was
    have h_in := (List.getElem?_eq_some_iff.mp h.opening).1
    have h_end := (List.getElem?_eq_some_iff.mp h.closing).1
    have h_lt := h.lt
    have h_inner : between text j i = (text.drop (j + 1)).take (i - (j + 1)) := by
      rw [between, List.drop_take]
    obtain ⟨since, h_open, h_count⟩ := openBefore_add text (j + 1) (i - (j + 1))
      fun n hn => by
        have h_opened := h.balanced.opened n
        rwa [h_inner, List.take_take, Nat.min_eq_left hn] at h_opened
    have h_closed := h.balanced.closed
    rw [h_inner] at h_closed
    obtain rfl : since = [] := List.eq_nil_iff_length_eq_zero.mpr (by omega)
    rw [Nat.add_sub_cancel' (Nat.succ_le_of_lt h_lt), List.nil_append,
      openBefore_jz (opcodeAt?_eq_some_iff.mpr h.opening)] at h_open
    exact h_open
  · rintro ⟨h_close, h_open⟩
    obtain ⟨h_lt, h_j, -, h_inner⟩ := openBefore_eq_cons h_open
    exact ⟨h_lt, h_j, h_close, h_inner⟩

/-! ### Balanced texts and trees -/

/-- An operation occurs among the operations as often as its symbol in the text. -/
theorem count_operations (op : Opcode) (text : List Char) :
    (operations text).count op = text.count op.symbol := by
  induction text with
  | nil => rfl
  | cons c rest ih =>
    cases h_op : Opcode.ofSymbol? c with
    | none =>
      have h_ne : c ≠ op.symbol := by
        rintro rfl
        simp at h_op
      rw [operations, List.filterMap_cons_none h_op, ← operations, ih, List.count_cons_of_ne h_ne]
    | some op' =>
      rw [operations_cons h_op, List.count_cons, List.count_cons, ih]
      obtain rfl := Opcode.ofSymbol?_eq_some_iff.mp h_op
      by_cases h_eq : op' = op
      · simp [h_eq]
      · have h_ne : op'.symbol ≠ op.symbol := fun h => h_eq (by
          simpa using congrArg Opcode.ofSymbol? h)
        simp [h_eq, h_ne]

/-- The operations of a text in which `k` brackets too many are closed are those from a
place on that has `k` loops around it. -/
theorem exists_site (h_closed : text.count ']' = text.count '[' + k)
    (h_opened : ∀ n, (text.take n).count ']' ≤ (text.take n).count '[' + k) :
    ∃ f : Site, f.rest = operations text ∧ f.outer.length = k := by
  induction text generalizing k with
  | nil =>
    obtain rfl : k = 0 := by simpa using h_closed.symm
    exact ⟨Site.finish, rfl, rfl⟩
  | cons c rest ih =>
    have h_after : ∀ n, ((c :: rest.take n).count ']') ≤ (c :: rest.take n).count '[' + k :=
      fun n => h_opened (n + 1)
    by_cases h_jz : c = '['
    · -- the loop that is opened is closed behind the first place it is around of
      subst h_jz
      simp only [List.count_cons_self, List.count_cons_of_ne (show '[' ≠ ']' by decide)]
        at h_closed h_after
      obtain ⟨⟨body, outer⟩, h_rest, h_length⟩ :=
        ih (k := k + 1) (by omega) fun n => by have h_n := h_after n; omega
      cases outer with
      | nil => cases h_length
      | cons loop outer =>
        refine ⟨⟨.loop body loop.2, outer⟩, ?_, Nat.succ.inj h_length⟩
        rw [Site.rest_loop,
          operations_cons (show Opcode.ofSymbol? '[' = some .jz from rfl), ← h_rest]
        rfl
    · by_cases h_jmp : c = ']'
      · -- a bracket closes a loop of which nothing is left, and one fewer is around what follows
        subst h_jmp
        have h_first := h_after 0
        simp only [List.count_cons_self, List.count_cons_of_ne (show ']' ≠ '[' by decide),
          List.take_zero, List.count_nil] at h_closed h_after h_first
        obtain ⟨k, rfl⟩ := Nat.exists_eq_succ_of_ne_zero (show k ≠ 0 by omega)
        obtain ⟨f, h_rest, h_length⟩ :=
          ih (k := k) (by omega) fun n => by have h_n := h_after n; omega
        refine ⟨⟨.done, (.done, f.here) :: f.outer⟩, ?_, congrArg _ h_length⟩
        rw [operations_cons (show Opcode.ofSymbol? ']' = some .jmp from rfl), ← h_rest]
        rfl
      · simp only [List.count_cons_of_ne h_jz, List.count_cons_of_ne h_jmp] at h_closed h_after
        obtain ⟨f, h_rest, h_length⟩ := ih h_closed h_after
        cases h_op : Opcode.ofSymbol? c with
        | none =>
          refine ⟨f, ?_, h_length⟩
          rw [operations, List.filterMap_cons_none h_op, ← operations, h_rest]
        | some op =>
          rw [operations_cons h_op, ← h_rest]
          cases op with
          | plain cmd => exact ⟨⟨.plain cmd f.here, f.outer⟩, rfl, h_length⟩
          | jz => exact absurd (Opcode.ofSymbol?_eq_some_iff.mp h_op) h_jz
          | jmp => exact absurd (Opcode.ofSymbol?_eq_some_iff.mp h_op) h_jmp

/-- **A text is balanced exactly if its operations are those of a tree.** -/
theorem balanced_iff : Balanced text ↔ ∃ p : Program, p.opcodes = operations text := by
  constructor
  · intro h
    obtain ⟨⟨p, outer⟩, h_rest, h_length⟩ := exists_site (k := 0) h.closed h.opened
    obtain rfl := List.length_eq_zero_iff.mp h_length
    exact ⟨p, by simpa [Site.rest, Site.restBehind] using h_rest⟩
  · rintro ⟨p, h_tree⟩
    have h_closed := p.count_opcodes
    rw [h_tree, count_operations, count_operations] at h_closed
    refine ⟨h_closed, fun n => ?_⟩
    -- what stands behind any first characters is the rest at a site
    have h_split : p.opcodes = operations (text.take n) ++ operations (text.drop n) := by
      rw [h_tree, ← operations_append, List.take_append_drop]
    obtain ⟨f, -, h_rest⟩ := Site.exists_of_append (Site.inside_start p) h_split
    -- behind a site no fewer brackets are closed than opened, so in front of it no more
    have h_behind := f.count_rest
    rw [h_rest, Site.start, Site.restBehind, List.append_nil, count_operations,
      count_operations] at h_behind
    rw [← List.take_append_drop n text, List.count_append, List.count_append] at h_closed
    simp only [Opcode.symbol] at h_closed h_behind
    omega

/-! ### Partners among the operations -/

/-- A text, split at one of its characters. -/
theorem take_append_cons_drop {c : Char} (h : text[i]? = some c) :
    text = text.take i ++ c :: text.drop (i + 1) := by
  obtain ⟨h_lt, rfl⟩ := List.getElem?_eq_some_iff.mp h
  rw [← List.drop_eq_getElem_cons h_lt, List.take_append_drop]

/-- Partners stand around the operations of a tree. -/
theorem Paired.operations (h : Paired text j i) :
    ∃ b : Program, b.opcodes = operations (between text j i) ∧
      operations text = operations (text.take j)
        ++ .jz :: (b.opcodes ++ .jmp :: operations (text.drop (i + 1))) := by
  obtain ⟨b, h_body⟩ := balanced_iff.mp h.balanced
  have h_lt := h.lt
  have h_open : (text.take i)[j]? = some '[' := by
    rw [List.getElem?_take_of_lt h_lt, h.opening]
  have h_front := take_append_cons_drop h_open
  rw [List.take_take, Nat.min_eq_left (Nat.le_of_lt h_lt)] at h_front
  refine ⟨b, h_body, ?_⟩
  conv_lhs => rw [take_append_cons_drop h.closing, h_front]
  -- the text in front, the bracket, what is between, the other bracket, and the text behind
  rw [operations_append, operations_append,
    operations_cons (show Opcode.ofSymbol? '[' = some .jz from rfl),
    operations_cons (show Opcode.ofSymbol? ']' = some .jmp from rfl), h_body, between,
    List.append_assoc, List.cons_append]

/-- Brackets among the operations stand in the text, with comments around them. -/
theorem exists_split {before inside behind : List Opcode}
    (h : operations text = before ++ .jz :: (inside ++ .jmp :: behind)) :
    ∃ front inner rest, text = front ++ '[' :: (inner ++ ']' :: rest) ∧
      operations front = before ∧ operations inner = inside := by
  obtain ⟨l₁, rest, rfl, h_before, h_rest⟩ := List.filterMap_eq_append_iff.mp h
  obtain ⟨l₂, c, rest, rfl, h_comments, h_c, h_rest⟩ := exists_of_operations_cons h_rest
  obtain ⟨l₃, rest, rfl, h_inside, h_rest⟩ := List.filterMap_eq_append_iff.mp h_rest
  obtain ⟨l₄, d, rest, rfl, h_comments', h_d, h_rest⟩ := exists_of_operations_cons h_rest
  obtain rfl := Opcode.ofSymbol?_eq_some_iff.mp h_c
  obtain rfl := Opcode.ofSymbol?_eq_some_iff.mp h_d
  refine ⟨l₁ ++ l₂, l₃ ++ l₄, rest, by simp [Opcode.symbol], ?_, ?_⟩
  · rw [operations_append, operations_comments h_comments, List.append_nil]
    exact h_before
  · rw [operations_append, operations_comments h_comments', List.append_nil]
    exact h_inside

/-- What is between two brackets of a text that is spelled out. -/
theorem between_append (front inner rest : List Char) :
    between (front ++ '[' :: (inner ++ ']' :: rest)) front.length
      (front.length + 1 + inner.length) = inner := by
  have h_text : front ++ '[' :: (inner ++ ']' :: rest)
      = (front ++ '[' :: inner) ++ ']' :: rest := by
    simp
  have h_length : (front ++ '[' :: inner).length = front.length + 1 + inner.length := by
    rw [List.length_append, List.length_cons]
    omega
  rw [between, h_text, List.take_left' h_length, ← List.drop_drop, List.drop_left,
    List.drop_succ_cons, List.drop_zero]

/-- Brackets around a balanced text are partners, whatever stands around them. -/
theorem paired_append (front rest : List Char) {inner : List Char} (h : Balanced inner) :
    Paired (front ++ '[' :: (inner ++ ']' :: rest)) front.length
      (front.length + 1 + inner.length) where
  lt := by omega
  opening := by
    rw [List.getElem?_append_right (Nat.le_refl _), Nat.sub_self]
    rfl
  closing := by
    rw [List.getElem?_append_right (by omega),
      show front.length + 1 + inner.length - front.length = inner.length + 1 by omega,
      List.getElem?_cons_succ, List.getElem?_append_right (Nat.le_refl _), Nat.sub_self]
    rfl
  balanced := by rwa [between_append]

/-- **Two brackets around the operations of a tree are partners** in the text. -/
theorem exists_paired {b : Program} {before behind : List Opcode}
    (h : operations text = before ++ .jz :: (b.opcodes ++ .jmp :: behind)) :
    ∃ j i, Paired text j i ∧ operations (between text j i) = b.opcodes ∧
      operations (text.take j) = before := by
  -- the comments in the text are shared out among the three pieces
  obtain ⟨front, inner, rest, rfl, h_front, h_inner⟩ := exists_split h
  refine ⟨front.length, front.length + 1 + inner.length,
    paired_append front rest (balanced_iff.mpr ⟨b, h_inner.symm⟩), ?_, ?_⟩
  · rw [between_append, h_inner]
  · rw [List.take_left, h_front]

end Source

end TapeProcessor
