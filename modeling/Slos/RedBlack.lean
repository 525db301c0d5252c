import Slos.TreePath
import Mathlib.Data.Nat.Log
import Mathlib.Tactic.Ring

/-!
# Red-black trees

The colours of a red-black tree and the two rebalancing algorithms that go up from a changed place, on trees: after an
insertion (`insertUp`) and where a subtree has become one black node short (`eraseUp`). Both keep the sequence of the nodes
for every tree, and keep a red-black tree red-black, so they make a `Balancer`. `Fits` is what a path asks of the subtree in
its place.
-/

namespace SearchTree

theorem Color.eq_red {c : Color} (h : c ≠ .black) : c = .red := by
  cases c with
  | red => rfl
  | black => exact absurd rfl h

theorem Color.eq_black {c : Color} (h : c ≠ .red) : c = .black := by
  cases c with
  | red => exact absurd rfl h
  | black => rfl

/-- The rounds that suffice for every loop over a tree of `n` nodes that goes up or down. -/
def treeRounds (n : ℕ) : ℕ := 2 * Nat.log 2 (n + 1) + 1

theorem treeRounds_le (n : ℕ) : treeRounds n ≤ n + 3 := by
  have hlog : 2 ^ Nat.log 2 (n + 1) ≤ n + 1 := Nat.pow_log_le_self 2 (by omega)
  have hpow (h : ℕ) : 2 * h ≤ 2 ^ h + 1 := by
    induction h with
    | zero => decide
    | succ h ih =>
        rw [Nat.pow_succ]
        have hpos : 0 < 2 ^ h := Nat.two_pow_pos h
        cases h with
        | zero => decide
        | succ h =>
            rw [Nat.pow_succ] at hpos ih ⊢
            omega
  have hle := hpow (Nat.log 2 (n + 1))
  rw [treeRounds]
  omega

theorem treeRounds_mono {n n' : ℕ} (h : n ≤ n') : treeRounds n ≤ treeRounds n' := by
  have hlog : Nat.log 2 (n + 1) ≤ Nat.log 2 (n' + 1) := Nat.log_mono_right (by omega)
  rw [treeRounds, treeRounds]
  omega

namespace BinTree

variable {α : Type*}

/-- No red node has a red child, and `h` black nodes stand on every way down to a leaf. -/
def Balanced : BinTree α → ℕ → Prop
  | nil, h => h = 0
  | node .red l _ r, h => l.color = .black ∧ r.color = .black ∧ l.Balanced h ∧ r.Balanced h
  | node .black l _ r, h => ∃ k, h = k + 1 ∧ l.Balanced k ∧ r.Balanced k

def RedBlack (t : BinTree α) : Prop := t.color = .black ∧ ∃ h, t.Balanced h

/-- The number of nodes on the longest way down. -/
def height : BinTree α → ℕ
  | nil => 0
  | node _ l _ r => max l.height r.height + 1

variable {s : Side} {near far l r t : BinTree α} {a : α} {h : ℕ}

theorem balanced_sided_red : (sided s .red near a far).Balanced h ↔
    near.color = .black ∧ far.color = .black ∧ near.Balanced h ∧ far.Balanced h := by
  cases s with
  | left => exact Iff.rfl
  | right =>
      constructor
      · rintro ⟨hf, hn, hbf, hbn⟩
        exact ⟨hn, hf, hbn, hbf⟩
      · rintro ⟨hn, hf, hbn, hbf⟩
        exact ⟨hf, hn, hbf, hbn⟩

theorem balanced_sided_black : (sided s .black near a far).Balanced (h + 1) ↔ near.Balanced h ∧ far.Balanced h := by
  cases s with
  | left =>
      constructor
      · rintro ⟨k, hk, hn, hf⟩
        obtain rfl := Nat.succ.inj hk
        exact ⟨hn, hf⟩
      · exact fun hb => ⟨h, rfl, hb.1, hb.2⟩
  | right =>
      constructor
      · rintro ⟨k, hk, hf, hn⟩
        obtain rfl := Nat.succ.inj hk
        exact ⟨hn, hf⟩
      · exact fun hb => ⟨h, rfl, hb.2, hb.1⟩

theorem not_balanced_sided_zero : ¬(sided s .black near a far).Balanced 0 := by
  cases s <;> exact fun ⟨k, hk, _⟩ => absurd hk k.succ_ne_zero.symm

/-- A red subtree turned black counts one node more. -/
theorem Balanced.paint_red (hb : t.Balanced h) (hc : t.color = .red) : (t.paint .black).Balanced (h + 1) := by
  cases t with
  | nil => cases hc
  | node c l a r =>
      obtain rfl : c = .red := hc
      exact ⟨h, rfl, hb.2.2⟩

/-- A black node on one side of a place counts as one black node on the other. -/
theorem exists_of_balanced_succ (hb : t.Balanced (h + 1)) (hc : t.color = .black) (s : Side) :
    ∃ near a far, t = sided s .black near a far ∧ near.Balanced h ∧ far.Balanced h := by
  cases t with
  | nil => cases hb
  | node c l a r =>
      obtain rfl : c = .black := hc
      refine ⟨_, a, _, (sided_child s .black a l r).symm, ?_⟩
      rw [← sided_child s .black a l r] at hb
      exact balanced_sided_black.mp hb

theorem exists_of_red (hb : t.Balanced h) (hc : t.color = .red) (s : Side) : ∃ near a far, t = sided s .red near a far ∧
    near.color = .black ∧ far.color = .black ∧ near.Balanced h ∧ far.Balanced h := by
  cases t with
  | nil => cases hc
  | node c l a r =>
      obtain rfl : c = .red := hc
      refine ⟨_, a, _, (sided_child s .red a l r).symm, ?_⟩
      rw [← sided_child s .red a l r] at hb
      exact balanced_sided_red.mp hb

theorem height_le_length (t : BinTree α) : t.height ≤ t.inorder.length := by
  induction t with
  | nil => exact Nat.zero_le _
  | node c l a r ihl ihr =>
      rw [height, inorder_node, List.length_append, List.length_cons]
      omega

/-- A tree with a black root is at most twice as high as it counts black nodes. -/
theorem Balanced.height_le (hb : t.Balanced h) : t.height ≤ 2 * h + if t.color = .red then 1 else 0 := by
  induction t generalizing h with
  | nil => exact Nat.zero_le _
  | node c l a r ihl ihr =>
      cases c with
      | red =>
          obtain ⟨hl, hr, hbl, hbr⟩ := hb
          have hlh := ihl hbl
          have hrh := ihr hbr
          rw [if_neg (by rw [hl]; decide)] at hlh
          rw [if_neg (by rw [hr]; decide)] at hrh
          rw [height, color, if_pos rfl]
          omega
      | black =>
          obtain ⟨k, rfl, hbl, hbr⟩ := hb
          have hlh : l.height ≤ 2 * k + 1 := (ihl hbl).trans (by split <;> omega)
          have hrh : r.height ≤ 2 * k + 1 := (ihr hbr).trans (by split <;> omega)
          rw [height, color, if_neg (by decide)]
          omega

theorem Balanced.two_pow_le (hb : t.Balanced h) : 2 ^ h ≤ t.inorder.length + 1 := by
  induction t generalizing h with
  | nil =>
      obtain rfl : h = 0 := hb
      exact le_rfl
  | node c l a r ihl ihr =>
      rw [inorder_node, List.length_append, List.length_cons]
      cases c with
      | red =>
          obtain ⟨-, -, hbl, hbr⟩ := hb
          have hl := ihl hbl
          omega
      | black =>
          obtain ⟨k, rfl, hbl, hbr⟩ := hb
          have hl := ihl hbl
          have hr := ihr hbr
          rw [Nat.pow_succ]
          omega

/-- The longest way down is at most twice the logarithm of the number of nodes. -/
theorem RedBlack.height_le (hb : t.RedBlack) : t.height ≤ 2 * Nat.log 2 (t.inorder.length + 1) := by
  obtain ⟨hc, h, hb⟩ := hb
  have hheight := hb.height_le
  rw [if_neg (by rw [hc]; decide)] at hheight
  have hlog : h ≤ Nat.log 2 (t.inorder.length + 1) := Nat.le_log_of_pow_le (by decide) hb.two_pow_le
  omega

theorem RedBlack.height_lt {B : ℕ} (hb : t.RedBlack) (hB : treeRounds t.inorder.length ≤ B) : t.height < B := by
  have hheight := hb.height_le
  rw [treeRounds] at hB
  omega

end BinTree

open BinTree SearchTree.Path

variable {α : Type*} {π : Path α} {f : Frame α} {t u : BinTree α} {c : Color} {h : ℕ}

namespace Path

theorem length_add_height_le (π : Path α) (t : BinTree α) : π.length + t.height ≤ (plug π t).height := by
  induction π generalizing t with
  | nil => exact (Nat.zero_add _).le
  | cons f π ih =>
      have hfill : t.height + 1 ≤ (f.fill t).height := by
        obtain ⟨side, c, a, sib⟩ := f
        cases side <;> simp only [Frame.fill, sided, height] <;> omega
      have hup := ih (f.fill t)
      rw [plug_cons, List.length_cons]
      omega

/-- The tree is red-black with a subtree of colour `c` in the place that counts `h` black nodes. -/
def Fits : Path α → Color → ℕ → Prop
  | [], c, _ => c = .black
  | f :: π, c, h => match f.color with
    | .red => c = .black ∧ f.sibling.color = .black ∧ f.sibling.Balanced h ∧ Fits π .red h
    | .black => f.sibling.Balanced h ∧ Fits π .black (h + 1)

theorem fits_cons_red (hf : f.color = .red) : Fits (f :: π) c h ↔
    c = .black ∧ f.sibling.color = .black ∧ f.sibling.Balanced h ∧ Fits π .red h := by
  rw [Fits, hf]

theorem fits_cons_black (hf : f.color = .black) : Fits (f :: π) c h ↔ f.sibling.Balanced h ∧ Fits π .black (h + 1) := by
  rw [Fits, hf]

/-- Where a red subtree fits, a black one does. -/
theorem Fits.black (hπ : Fits π c h) : Fits π .black h := by
  cases c with
  | black => exact hπ
  | red =>
      cases π with
      | nil => cases hπ
      | cons f π =>
          cases hf : f.color with
          | red => exact absurd ((fits_cons_red hf).mp hπ).1 (by decide)
          | black => exact (fits_cons_black hf).mpr ((fits_cons_black hf).mp hπ)

/-- Above a red frame stands a black one. -/
theorem fits_cons_cons_red {g : Frame α} (hf : f.color ≠ .black) (hπ : Fits (f :: g :: π) c h) : f.sibling.color = .black ∧
    f.sibling.Balanced h ∧ g.color = .black ∧ g.sibling.Balanced h ∧ Fits π .black (h + 1) := by
  obtain ⟨-, hs, hbs, hπ⟩ := (fits_cons_red (Color.eq_red hf)).mp hπ
  cases hg : g.color with
  | red => exact absurd ((fits_cons_red hg).mp hπ).1 (by decide)
  | black =>
      obtain ⟨hbg, hπ⟩ := (fits_cons_black hg).mp hπ
      exact ⟨hs, hbs, rfl, hbg, hπ⟩

theorem redBlack_plug : (plug π t).RedBlack ↔ ∃ h, t.Balanced h ∧ Fits π t.color h := by
  induction π generalizing t with
  | nil =>
      constructor
      · rintro ⟨hc, h, hb⟩
        exact ⟨h, hb, hc⟩
      · rintro ⟨h, hb, hc⟩
        exact ⟨hc, h, hb⟩
  | cons f π ih =>
      rw [plug_cons, ih, Frame.fill, color_sided]
      cases hf : f.color with
      | red =>
          simp only [fits_cons_red hf, balanced_sided_red]
          constructor
          · rintro ⟨h, ⟨ht, hs, hbt, hbs⟩, hπ⟩
            exact ⟨h, hbt, ht, hs, hbs, hπ⟩
          · rintro ⟨h, hbt, ht, hs, hbs, hπ⟩
            exact ⟨h, ⟨ht, hs, hbt, hbs⟩, hπ⟩
      | black =>
          simp only [fits_cons_black hf]
          constructor
          · rintro ⟨h, hb, hπ⟩
            cases h with
            | zero => exact absurd hb not_balanced_sided_zero
            | succ h =>
                obtain ⟨hbt, hbs⟩ := balanced_sided_black.mp hb
                exact ⟨h, hbt, hbs, hπ⟩
          · rintro ⟨h, hbt, hbs, hπ⟩
            exact ⟨h + 1, balanced_sided_black.mpr ⟨hbt, hbs⟩, hπ⟩

end Path

section Insert

/-- The rotation at the grandparent, where the node is on the same side of its parent as that one of its own. -/
def rotateOuter (f g : Frame α) (t : BinTree α) : BinTree α :=
  sided g.side g.color t f.val (sided g.side .red (f.sibling.paint .black) g.val g.sibling)

/-- The two rotations, where the node is on the other side. -/
def rotateInner (f g : Frame α) (t : BinTree α) : BinTree α :=
  match t.root? with
  | none => g.fill (f.fill t)
  | some x => sided g.side g.color (sided g.side .red f.sibling f.val ((t.child g.side).paint .black)) x
      (sided g.side .red ((t.child g.side.other).paint .black) g.val g.sibling)

/-- What becomes of a tree whose subtree `t` in the place has turned red. -/
def insertUp : Path α → BinTree α → BinTree α
  | [], t => t.paint .black
  | [f], t => f.fill t
  | f :: g :: π, t =>
      if f.color = .black then plug (f :: g :: π) t
      else if g.sibling.color = .red then
        insertUp π (sided g.side .red (sided f.side .black t f.val f.sibling) g.val (g.sibling.paint .black))
      else if f.side = g.side then plug π (rotateOuter f g t)
      else plug π (rotateInner f g t)

theorem inorder_sided_congr {s : Side} {c c' : Color} {t t' u u' : BinTree α} {a : α} (ht : t.inorder = t'.inorder)
    (hu : u.inorder = u'.inorder) : (sided s c t a u).inorder = (sided s c' t' a u').inorder := by
  cases s <;> simp [sided, ht, hu]

theorem inorder_rotateOuter {g : Frame α} (h : f.side = g.side) (t : BinTree α) :
    (rotateOuter f g t).inorder = (g.fill (f.fill t)).inorder := by
  rw [rotateOuter, Frame.fill, Frame.fill, h]
  cases g.side <;> simp [sided]

theorem inorder_rotateInner {g : Frame α} (h : f.side ≠ g.side) (t : BinTree α) :
    (rotateInner f g t).inorder = (g.fill (f.fill t)).inorder := by
  cases t with
  | nil => rfl
  | node c l x r =>
      rw [rotateInner, root?, Frame.fill, Frame.fill, Side.eq_other_of_ne h]
      cases g.side <;> simp [sided, child, Side.other]

theorem inorder_insertUp (π : Path α) (t : BinTree α) : (insertUp π t).inorder = (plug π t).inorder := by
  induction π, t using insertUp.induct with
  | case1 t => exact t.inorder_paint .black
  | case2 f t => rfl
  | case3 f g π t hf => rw [insertUp, if_pos hf]
  | case4 f g π t hf hg ih =>
      rw [insertUp, if_neg hf, if_pos hg, ih, plug_cons, plug_cons]
      apply inorder_plug_congr
      exact inorder_sided_congr (inorder_sided_congr rfl rfl) (inorder_paint ..)
  | case5 f g π t hf hg hs =>
      rw [insertUp, if_neg hf, if_neg hg, if_pos hs, plug_cons, plug_cons]
      exact inorder_plug_congr π (inorder_rotateOuter hs t)
  | case6 f g π t hf hg hs =>
      rw [insertUp, if_neg hf, if_neg hg, if_neg hs, plug_cons, plug_cons]
      exact inorder_plug_congr π (inorder_rotateInner hs t)

/-- With a red subtree in a place for a black one the algorithm makes the tree red-black. -/
theorem redBlack_insertUp (hb : t.Balanced h) (hc : t.color = .red) (hπ : Fits π .black h) : (insertUp π t).RedBlack := by
  induction π, t using insertUp.induct generalizing h with
  | case1 t => exact ⟨color_paint_black t, h + 1, hb.paint_red hc⟩
  | case2 f t =>
      cases hf : f.color with
      | red => exact absurd ((fits_cons_red hf).mp hπ).2.2.2 (by simp [Fits])
      | black => exact redBlack_plug.mpr ⟨h, hb, (fits_cons_black hf).mpr ((fits_cons_black hf).mp hπ)⟩
  | case3 f g π t hf =>
      rw [insertUp, if_pos hf]
      exact redBlack_plug.mpr ⟨h, hb, (fits_cons_black hf).mpr ((fits_cons_black hf).mp hπ)⟩
  | case4 f g π t hf hg ih =>
      obtain ⟨-, hbs, -, hbg, hπ⟩ := fits_cons_cons_red hf hπ
      rw [insertUp, if_neg hf, if_pos hg]
      refine ih (h := h + 1) (balanced_sided_red.mpr ⟨color_sided .., color_paint_black _, ?_, hbg.paint_red hg⟩)
        (color_sided ..) hπ
      exact balanced_sided_black.mpr ⟨hb, hbs⟩
  | case5 f g π t hf hg hs =>
      obtain ⟨hcs, hbs, hcg, hbg, hπ⟩ := fits_cons_cons_red hf hπ
      have hcg' : g.sibling.color = .black := Color.eq_black hg
      rw [insertUp, if_neg hf, if_neg hg, if_pos hs, rotateOuter, paint_of_color hcs, hcg]
      refine redBlack_plug.mpr ⟨h + 1, balanced_sided_black.mpr ⟨hb, ?_⟩, by rwa [color_sided]⟩
      exact balanced_sided_red.mpr ⟨hcs, hcg', hbs, hbg⟩
  | case6 f g π t hf hg hs =>
      obtain ⟨hcs, hbs, hcg, hbg, hπ⟩ := fits_cons_cons_red hf hπ
      have hcg' : g.sibling.color = .black := Color.eq_black hg
      obtain ⟨near, x, far, rfl, hcn, hcf, hbn, hbf⟩ := exists_of_red hb hc g.side
      rw [insertUp, if_neg hf, if_neg hg, if_neg hs, rotateInner, root?_sided]
      simp only [child_sided, child_other_sided]
      rw [paint_of_color hcn, paint_of_color hcf, hcg]
      refine redBlack_plug.mpr ⟨h + 1, balanced_sided_black.mpr ⟨?_, ?_⟩, by rwa [color_sided]⟩
      · exact balanced_sided_red.mpr ⟨hcs, hcn, hbs, hbn⟩
      · exact balanced_sided_red.mpr ⟨hcf, hcg', hbf, hbg⟩

/-- A new leaf in an empty place of a red-black tree. -/
theorem redBlack_insertLeaf (hb : (plug π nil).RedBlack) (x : α) : (insertUp π (node .red nil x nil)).RedBlack := by
  obtain ⟨h, h0, hfits⟩ := redBlack_plug.mp hb
  obtain rfl : h = 0 := h0
  exact redBlack_insertUp (h := 0) ⟨rfl, rfl, rfl, rfl⟩ rfl hfits

end Insert

section Erase

/-- A round under a parent with a black sibling, where the subtree in the place is one black node short. On the right is
the finished subtree with the parent in it, on the left one that is short in turn. -/
def settle (f : Frame α) (t : BinTree α) : BinTree α ⊕ BinTree α :=
  let near := f.sibling.child f.side
  let far := f.sibling.child f.side.other
  match f.sibling.root?, near.root? with
  | none, _ => .inr (f.fill t)
  | some a, b =>
      if far.color = .red then .inr (sided f.side f.color (sided f.side .black t f.val near) a (far.paint .black))
      else if near.color = .red then
        match b with
        | none => .inr (f.fill t)
        | some b => .inr (sided f.side f.color (sided f.side .black t f.val (near.child f.side)) b
            (sided f.side .black ((near.child f.side.other).paint .black) a far))
      else if f.color = .red then .inr (sided f.side .black t f.val (f.sibling.paint .red))
      else .inl (sided f.side .black t f.val (f.sibling.paint .red))

/-- The parent and the place under it after the rotation that gives the place a black sibling. -/
def lowered (f : Frame α) : Frame α := ⟨f.side, .red, f.val, (f.sibling.child f.side).paint .black⟩

/-- What becomes of a tree whose subtree `t` in the place is one black node short. -/
def eraseUp : Path α → BinTree α → BinTree α
  | [], t => t
  | f :: π, t =>
      if f.sibling.color = .red then
        match f.sibling.root? with
        | none => plug π (f.fill t)
        | some a => plug (⟨f.side, f.color, a, f.sibling.child f.side.other⟩ :: π) ((settle (lowered f) t).elim id id)
      else (settle f t).elim (eraseUp π) (plug π)

/-- Under a red parent the round is the last one. -/
theorem settle_lowered (f : Frame α) (t u : BinTree α) : settle (lowered f) t ≠ .inl u := by
  rw [settle]
  split
  · simp
  · split_ifs with hfar hnear hc
    · simp
    · split <;> simp
    · simp
    · exact absurd rfl hc

theorem inorder_settle (f : Frame α) (t : BinTree α) : ((settle f t).elim id id).inorder = (f.fill t).inorder := by
  obtain ⟨side, c, p, sib⟩ := f
  rw [settle]
  cases sib with
  | nil => rfl
  | node c' l a r =>
      dsimp only [root?, Frame.fill]
      split_ifs with hfar hnear hc
      · cases side <;> simp [sided, child, Side.other]
      · obtain ⟨cn, x, b, y, hn⟩ := exists_sided (ne_nil_of_red hnear) side
        rw [hn]
        cases side <;> simp_all [sided, child, Side.other]
      · exact inorder_sided_congr rfl (inorder_paint ..)
      · exact inorder_sided_congr rfl (inorder_paint ..)

theorem inorder_eraseUp (π : Path α) (t : BinTree α) : (eraseUp π t).inorder = (plug π t).inorder := by
  induction π generalizing t with
  | nil => rfl
  | cons f π ih =>
      rw [eraseUp, plug_cons]
      split_ifs with hs
      · cases hsib : f.sibling with
        | nil => rfl
        | node c l a r =>
            dsimp only [root?]
            rw [plug_cons]
            apply inorder_plug_congr
            have hstep (u : BinTree α) : (sided f.side f.color ((settle (lowered f) t).elim id id) a u).inorder =
                (sided f.side f.color ((lowered f).fill t) a u).inorder := inorder_sided_congr (inorder_settle _ t) rfl
            rw [Frame.fill, hstep, lowered, hsib, Frame.fill, Frame.fill, hsib]
            cases f.side <;> simp [sided, child, Side.other]
      · have hsettle := inorder_settle f t
        cases hst : settle f t with
        | inl u =>
            rw [hst] at hsettle
            exact (ih u).trans (inorder_plug_congr π hsettle)
        | inr u =>
            rw [hst] at hsettle
            exact inorder_plug_congr π hsettle

theorem Path.Fits.balanced_sibling (hπ : Fits (f :: π) c h) : f.sibling.Balanced h := by
  cases hf : f.color with
  | red => exact ((fits_cons_red hf).mp hπ).2.2.1
  | black => exact ((fits_cons_black hf).mp hπ).1

/-- Under a parent with a red sibling. -/
theorem Path.Fits.exists_of_red_sibling (hπ : Fits (f :: π) .black (h + 1)) (hs : f.sibling.color = .red) :
    f.color = .black ∧
    ∃ near a far, f.sibling = sided f.side .red near a far ∧ near.color = .black ∧ far.color = .black ∧
      near.Balanced (h + 1) ∧ far.Balanced (h + 1) ∧ Fits π .black (h + 2) := by
  cases hf : f.color with
  | red =>
      have hblack := ((fits_cons_red hf).mp hπ).2.1
      rw [hs] at hblack
      cases hblack
  | black =>
      obtain ⟨hbs, hπ⟩ := (fits_cons_black hf).mp hπ
      obtain ⟨near, a, far, hsib, hcn, hcf, hbn, hbf⟩ := exists_of_red hbs hs f.side
      exact ⟨rfl, near, a, far, hsib, hcn, hcf, hbn, hbf, hπ⟩

theorem Path.Fits.root?_sibling_ne_none (hπ : Fits (f :: π) .black (h + 1)) : f.sibling.root? ≠ none := by
  have hbs := hπ.balanced_sibling
  intro hnone
  cases hs : f.sibling with
  | nil =>
      rw [hs] at hbs
      cases hbs
  | node c l a r =>
      rw [hs] at hnone
      cases hnone

/-- Under a parent with a black sibling. -/
theorem Path.Fits.exists_of_black_sibling (hπ : Fits (f :: π) .black (h + 1)) (hs : f.sibling.color = .black) :
    ∃ near a far, f.sibling = sided f.side .black near a far ∧ near.Balanced h ∧ far.Balanced h :=
  exists_of_balanced_succ hπ.balanced_sibling hs f.side

/-- A round ends with a subtree that fits, or goes on with one that is again one black node short. -/
theorem settle_fits (hb : t.Balanced h) (hs : f.sibling.color = .black) (hπ : Fits (f :: π) .black (h + 1)) :
    (settle f t).elim (fun u => f.color = .black ∧ u.color = .black ∧ u.Balanced (h + 1) ∧ Fits π .black (h + 2))
      fun u => ∃ k, u.Balanced k ∧ Fits π u.color k := by
  -- Two subtrees that count `h` black nodes complete the parent, whatever its colour.
  have hdone {near far : BinTree α} {a : α} (hn : near.Balanced (h + 1)) (hf : far.Balanced (h + 1))
      (hcn : near.color = .black) (hcf : far.color = .black) :
      ∃ k, (sided f.side f.color near a far).Balanced k ∧ Fits π (sided f.side f.color near a far).color k := by
    rw [color_sided]
    cases hc : f.color with
    | red => exact ⟨h + 1, balanced_sided_red.mpr ⟨hcn, hcf, hn, hf⟩, ((fits_cons_red hc).mp hπ).2.2.2⟩
    | black => exact ⟨h + 2, balanced_sided_black.mpr ⟨hn, hf⟩, ((fits_cons_black hc).mp hπ).2⟩
  obtain ⟨near, a, far, hsib, hbn, hbf⟩ := hπ.exists_of_black_sibling hs
  rw [settle, hsib, root?_sided, child_sided, child_other_sided]
  dsimp only
  split_ifs with hfar hnear hc
  · exact hdone (balanced_sided_black.mpr ⟨hb, hbn⟩) (hbf.paint_red hfar) (color_sided ..) (color_paint_black _)
  · obtain ⟨x, b, y, rfl, hcx, hcy, hbx, hby⟩ := exists_of_red hbn hnear f.side
    rw [root?_sided, child_sided, child_other_sided, paint_of_color hcy]
    exact hdone (balanced_sided_black.mpr ⟨hb, hbx⟩) (balanced_sided_black.mpr ⟨hby, hbf⟩) (color_sided ..) (color_sided ..)
  all_goals
    have hcn : near.color = .black := Color.eq_black hnear
    have hcf : far.color = .black := Color.eq_black hfar
    have hred : (sided f.side .red near a far).Balanced h := balanced_sided_red.mpr ⟨hcn, hcf, hbn, hbf⟩
    rw [paint_sided]
  · refine ⟨h + 1, balanced_sided_black.mpr ⟨hb, hred⟩, ?_⟩
    rw [color_sided]
    exact ((fits_cons_red hc).mp hπ).2.2.2.black
  · have hc' : f.color = .black := Color.eq_black hc
    exact ⟨hc', color_sided .., balanced_sided_black.mpr ⟨hb, hred⟩, ((fits_cons_black hc').mp hπ).2⟩

/-- Where a subtree with one black node more would fit the algorithm makes the tree red-black. -/
theorem redBlack_eraseUp (hb : t.Balanced h) (hc : t.color = .black) (hπ : Fits π .black (h + 1)) :
    (eraseUp π t).RedBlack := by
  induction π generalizing t h with
  | nil => exact ⟨hc, h, hb⟩
  | cons f π ih =>
      rw [eraseUp]
      split_ifs with hs
      · obtain ⟨hf, near, a, far, hsib, hcn, hcf, hbn, hbf, hπ⟩ := hπ.exists_of_red_sibling hs
        rw [hsib, root?_sided, child_other_sided, hf]
        have hnear : lowered f = ⟨f.side, .red, f.val, near⟩ := by
          rw [lowered, hsib, child_sided, paint_of_color hcn]
        have hfits : Fits (lowered f :: ⟨f.side, .black, a, far⟩ :: π) .black (h + 1) := by
          rw [hnear]
          exact ⟨rfl, hcn, hbn, hbf, hπ⟩
        have hsettle := settle_fits hb (by rw [hnear]; exact hcn) hfits
        cases hst : settle (lowered f) t with
        | inl u =>
            rw [hst] at hsettle
            cases hsettle.1
        | inr u =>
            rw [hst] at hsettle
            exact redBlack_plug.mpr hsettle
      · have hs' : f.sibling.color = .black := Color.eq_black hs
        have hsettle := settle_fits hb hs' hπ
        cases hst : settle f t with
        | inl u =>
            rw [hst] at hsettle
            obtain ⟨-, hcu, hbu, hπ⟩ := hsettle
            exact ih hbu hcu hπ
        | inr u =>
            rw [hst] at hsettle
            exact redBlack_plug.mpr hsettle

/-- The place of a removed node of colour `c` takes the only child of the node. -/
def replaceChild (π : Path α) (c : Color) : BinTree α → BinTree α
  | nil => if c = .black then eraseUp π nil else plug π nil
  | t => plug π (t.paint .black)

/-- The first node in order of a tree, with its right subtree and the path to it. -/
def leftPath : Path α → Color → BinTree α → α → BinTree α → Path α × Color × α × BinTree α
  | π, c, nil, a, r => (π, c, a, r)
  | π, c, node c' l' a' r', a, r => leftPath (⟨.left, c, a, r⟩ :: π) c' l' a' r'

/-- The tree without the node in the place, of colour `c` and with the two subtrees. -/
def eraseAt (π : Path α) (c : Color) : BinTree α → BinTree α → BinTree α
  | nil, nil => replaceChild π c nil
  | nil, r => plug π (r.paint c)
  | l, nil => plug π (l.paint c)
  | l, node c' l' a' r' =>
      let (ρ, cs, successor, child2) := leftPath [] c' l' a' r'
      replaceChild (ρ ++ ⟨.right, c, successor, l⟩ :: π) cs child2

theorem inorder_replaceChild (π : Path α) (c : Color) (t : BinTree α) :
    (replaceChild π c t).inorder = (plug π t).inorder := by
  cases t with
  | nil =>
      rw [replaceChild]
      split_ifs
      · exact inorder_eraseUp π nil
      · rfl
  | node c' l a r => exact inorder_plug_congr π (inorder_paint ..)

theorem redBlack_replaceChild {x : α} (h : (plug π (node c nil x t)).RedBlack) : (replaceChild π c t).RedBlack := by
  obtain ⟨k, hb, hπ⟩ := redBlack_plug.mp h
  cases c with
  | red =>
      obtain ⟨-, hct, h0, hbt⟩ := hb
      obtain rfl : k = 0 := h0
      cases t with
      | nil => exact redBlack_plug.mpr ⟨0, rfl, hπ.black⟩
      | node c' l a r =>
          obtain rfl : c' = .black := hct
          obtain ⟨j, hj, -⟩ := hbt
          cases hj
  | black =>
      obtain ⟨j, rfl, h0, hbt⟩ := hb
      obtain rfl : j = 0 := h0
      cases t with
      | nil => exact redBlack_eraseUp (h := 0) rfl rfl hπ
      | node c' l a r =>
          cases c' with
          | red => exact redBlack_plug.mpr ⟨1, hbt.paint_red rfl, hπ⟩
          | black =>
              obtain ⟨j, hj, -⟩ := hbt
              cases hj

/-- Which node stands above a place makes no difference. -/
theorem redBlack_plug_cons_val {side : Side} {sib : BinTree α} {a b : α} (h : (plug (⟨side, c, a, sib⟩ :: π) t).RedBlack) :
    (plug (⟨side, c, b, sib⟩ :: π) t).RedBlack := by
  rw [redBlack_plug] at h ⊢
  exact h

theorem plug_leftPath (π : Path α) (c : Color) (l : BinTree α) (a : α) (r : BinTree α) : ∃ ρ cs successor child2,
    leftPath π c l a r = (ρ ++ π, cs, successor, child2) ∧ plug ρ (node cs nil successor child2) = node c l a r ∧
      ∀ f ∈ ρ, f.side = .left := by
  induction l generalizing π c a r with
  | nil => exact ⟨[], c, a, r, rfl, rfl, fun f hf => by cases hf⟩
  | node c' l' a' r' ihl _ =>
      obtain ⟨ρ, cs, successor, child2, hpath, hplug, hside⟩ := ihl (⟨.left, c, a, r⟩ :: π) c' a' r'
      refine ⟨ρ ++ [⟨.left, c, a, r⟩], cs, successor, child2, by simpa [leftPath] using hpath, ?_, ?_⟩
      · rw [plug_append, hplug]
        rfl
      · intro f hf
        rcases List.mem_append.mp hf with hf | hf
        · exact hside f hf
        · rw [List.mem_singleton.mp hf]

theorem before_of_left {ρ : Path α} (h : ∀ f ∈ ρ, f.side = .left) : before ρ = [] := by
  induction ρ with
  | nil => rfl
  | cons f ρ ih =>
      rw [before, h f List.mem_cons_self]
      exact ih fun g hg => h g (List.mem_cons_of_mem f hg)

theorem inorder_eraseAt (π : Path α) (c : Color) (l r : BinTree α) :
    (eraseAt π c l r).inorder = before π ++ (l.inorder ++ r.inorder) ++ after π := by
  cases l with
  | nil =>
      cases r with
      | nil => exact (inorder_replaceChild π c nil).trans (inorder_plug π nil)
      | node c' l' a' r' => exact inorder_plug π _
  | node c₁ l₁ a₁ r₁ =>
      cases r with
      | nil => simp [eraseAt, inorder_plug, paint]
      | node c' l' a' r' =>
          obtain ⟨ρ, cs, successor, child2, hpath, hplug, hside⟩ := plug_leftPath [] c' l' a' r'
          have hbefore := before_of_left hside
          have hin : successor :: (child2.inorder ++ after ρ) = (node c' l' a' r').inorder := by
            rw [← hplug, inorder_plug, hbefore]
            rfl
          simp only [eraseAt, hpath, List.append_nil]
          rw [inorder_replaceChild, plug_append, plug_cons, inorder_plug π, Frame.fill, sided, inorder_node, inorder_plug ρ,
            hbefore, ← hin]
          rfl

theorem redBlack_eraseAt {x : α} {l r : BinTree α} (h : (plug π (node c l x r)).RedBlack) : (eraseAt π c l r).RedBlack := by
  cases l with
  | nil =>
      cases r with
      | nil => exact redBlack_replaceChild h
      | node c' l' a' r' =>
          have hrep := redBlack_replaceChild h
          obtain ⟨k, hb, -⟩ := redBlack_plug.mp h
          cases c with
          | black => exact hrep
          | red =>
              obtain ⟨-, hc', h0, hb'⟩ := hb
              obtain rfl : k = 0 := h0
              obtain rfl : c' = .black := hc'
              obtain ⟨j, hj, -⟩ := hb'
              cases hj
  | node c₁ l₁ a₁ r₁ =>
      cases r with
      | nil =>
          obtain ⟨k, hb, hπ⟩ := redBlack_plug.mp h
          cases c with
          | black =>
              obtain ⟨j, rfl, hb', h0⟩ := hb
              obtain rfl : j = 0 := h0
              cases c₁ with
              | red => exact redBlack_plug.mpr ⟨1, hb'.paint_red rfl, hπ⟩
              | black =>
                  obtain ⟨j, hj, -⟩ := hb'
                  cases hj
          | red =>
              obtain ⟨hc', -, hb', h0⟩ := hb
              obtain rfl : k = 0 := h0
              obtain rfl : c₁ = .black := hc'
              obtain ⟨j, hj, -⟩ := hb'
              cases hj
      | node c' l' a' r' =>
          obtain ⟨ρ, cs, successor, child2, hpath, hplug, -⟩ := plug_leftPath [] c' l' a' r'
          simp only [eraseAt, hpath, List.append_nil]
          apply redBlack_replaceChild
          rw [plug_append, hplug]
          exact redBlack_plug_cons_val h

end Erase

section Balancer

variable [DecidableEq α]

def inserted (x : α) (t : BinTree α) : BinTree α :=
  match locate x [] t with
  | (_, nil) => t
  | (π, node _ l a r) => insertUp π (node .red l a r)

def erased (x : α) (t : BinTree α) : BinTree α :=
  match locate x [] t with
  | (_, nil) => t
  | (π, node c l _ r) => eraseAt π c l r

theorem inserted_plug {x : α} {l r : BinTree α} (hnd : (plug π (node c l x r)).inorder.Nodup) :
    inserted x (plug π (node c l x r)) = insertUp π (node .red l x r) := by
  rw [inserted, locate_plug hnd, List.append_nil]

theorem erased_plug {x : α} {l r : BinTree α} (hnd : (plug π (node c l x r)).inorder.Nodup) :
    erased x (plug π (node c l x r)) = eraseAt π c l r := by
  rw [erased, locate_plug hnd, List.append_nil]

theorem exists_plug {x : α} (hx : x ∈ t.inorder) : ∃ π c l r, t = plug π (node c l x r) := by
  obtain ⟨π, c, l, r, -, hplug⟩ := locate_spec [] hx
  exact ⟨π, c, l, r, hplug.symm⟩

theorem inorder_inserted (x : α) (t : BinTree α) (hnd : t.inorder.Nodup) (hx : x ∈ t.inorder) :
    (inserted x t).inorder = t.inorder := by
  obtain ⟨π, c, l, r, rfl⟩ := exists_plug hx
  rw [inserted_plug hnd, inorder_insertUp]
  exact inorder_plug_congr π rfl

theorem inorder_erased (x : α) (t : BinTree α) (hnd : t.inorder.Nodup) (hx : x ∈ t.inorder) :
    (erased x t).inorder = t.inorder.erase x := by
  obtain ⟨π, c, l, r, rfl⟩ := exists_plug hx
  have hsplit : (plug π (node c l x r)).inorder = (before π ++ l.inorder) ++ x :: (r.inorder ++ after π) := by
    rw [inorder_plug]
    simp
  have hnot : x ∉ before π ++ l.inorder := by
    rw [hsplit] at hnd
    exact fun h => List.disjoint_of_nodup_append hnd h List.mem_cons_self
  rw [erased_plug hnd, inorder_eraseAt, hsplit, List.erase_append_right _ hnot, List.erase_cons_head]
  simp

def Balancer.redBlack (α : Type*) [DecidableEq α] : Balancer α := ⟨inserted, erased, inorder_inserted, inorder_erased⟩

/-- The way down from the place to the leaf that an insertion takes. -/
def descend (goLeft : α → Bool) : Path α → BinTree α → Path α
  | π, nil => π
  | π, node c l a r => if goLeft a then descend goLeft (⟨.left, c, a, r⟩ :: π) l
      else descend goLeft (⟨.right, c, a, l⟩ :: π) r

omit [DecidableEq α] in
theorem plug_descend (goLeft : α → Bool) (π : Path α) (t : BinTree α) : plug (descend goLeft π t) nil = plug π t := by
  induction t generalizing π with
  | nil => rfl
  | node c l a r ihl ihr =>
      rw [descend]
      split_ifs
      · exact ihl _
      · exact ihr _

omit [DecidableEq α] in
theorem plug_descend_link (goLeft : α → Bool) (π : Path α) (t : BinTree α) (x : α) :
    plug (descend goLeft π t) (node .red nil x nil) = plug π (t.link goLeft x) := by
  induction t generalizing π with
  | nil => rfl
  | node c l a r ihl ihr =>
      rw [descend, link]
      split_ifs
      · exact ihl _
      · exact ihr _

theorem redBlack_insert {goLeft : α → Bool} {x : α} (hnd : t.inorder.Nodup) (hx : x ∉ t.inorder) (hb : t.RedBlack) :
    ((Balancer.redBlack α).insert goLeft x t).RedBlack := by
  have hperm := t.perm_link goLeft x
  have hnd' : (t.link goLeft x).inorder.Nodup := hperm.nodup_iff.mpr (List.nodup_cons.mpr ⟨hx, hnd⟩)
  have hlink := plug_descend_link goLeft [] t x
  rw [plug_nil] at hlink
  rw [Balancer.insert]
  change (inserted x (t.link goLeft x)).RedBlack
  rw [← hlink] at hnd' ⊢
  rw [inserted_plug hnd']
  have hleaf := plug_descend goLeft [] t
  rw [plug_nil] at hleaf
  rw [← hleaf] at hb
  exact redBlack_insertLeaf hb x

theorem redBlack_erase {x : α} (hnd : t.inorder.Nodup) (hx : x ∈ t.inorder) (hb : t.RedBlack) :
    ((Balancer.redBlack α).erase x t).RedBlack := by
  obtain ⟨π, c, l, r, rfl⟩ := exists_plug hx
  change (erased x _).RedBlack
  rw [erased_plug hnd]
  exact redBlack_eraseAt hb

end Balancer

end SearchTree
