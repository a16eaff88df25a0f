/-!
# The key values of `keyboard.h` and the table of `keymap.h`

A key is a `u32`. A key that is no character has `FLAG_EXT` and a number, and
the modifiers held down with it are further flags.
-/

namespace LearningLinux.Keyboard

def MAP_COLS : Nat := 3

def FLAG_BREAK : UInt8 := 0x80
def FLAG_EXT : UInt32 := 0x0100
def FLAG_SHIFT_L : UInt32 := 0x0200
def FLAG_SHIFT_R : UInt32 := 0x0400
def FLAG_CTRL_L : UInt32 := 0x0800
def FLAG_CTRL_R : UInt32 := 0x1000
def FLAG_ALT_L : UInt32 := 0x2000
def FLAG_ALT_R : UInt32 := 0x4000

/-! ## Keys that are no characters -/

def ESC : UInt32 := 0x01 + FLAG_EXT
def TAB : UInt32 := 0x02 + FLAG_EXT
def ENTER : UInt32 := 0x03 + FLAG_EXT
def BACKSPACE : UInt32 := 0x04 + FLAG_EXT
def GUI_L : UInt32 := 0x05 + FLAG_EXT
def GUI_R : UInt32 := 0x06 + FLAG_EXT
def APPS : UInt32 := 0x07 + FLAG_EXT
def SHIFT_L : UInt32 := 0x08 + FLAG_EXT
def SHIFT_R : UInt32 := 0x09 + FLAG_EXT
def CTRL_L : UInt32 := 0x0A + FLAG_EXT
def CTRL_R : UInt32 := 0x0B + FLAG_EXT
def ALT_L : UInt32 := 0x0C + FLAG_EXT
def ALT_R : UInt32 := 0x0D + FLAG_EXT
def CAPS_LOCK : UInt32 := 0x0E + FLAG_EXT
def NUM_LOCK : UInt32 := 0x0F + FLAG_EXT
def SCROLL_LOCK : UInt32 := 0x10 + FLAG_EXT
def F1 : UInt32 := 0x11 + FLAG_EXT
def F2 : UInt32 := 0x12 + FLAG_EXT
def F3 : UInt32 := 0x13 + FLAG_EXT
def F4 : UInt32 := 0x14 + FLAG_EXT
def F5 : UInt32 := 0x15 + FLAG_EXT
def F6 : UInt32 := 0x16 + FLAG_EXT
def F7 : UInt32 := 0x17 + FLAG_EXT
def F8 : UInt32 := 0x18 + FLAG_EXT
def F9 : UInt32 := 0x19 + FLAG_EXT
def F10 : UInt32 := 0x1A + FLAG_EXT
def F11 : UInt32 := 0x1B + FLAG_EXT
def F12 : UInt32 := 0x1C + FLAG_EXT
def PRINTSCREEN : UInt32 := 0x1D + FLAG_EXT
def INSERT : UInt32 := 0x1F + FLAG_EXT
def DELETE : UInt32 := 0x20 + FLAG_EXT
def HOME : UInt32 := 0x21 + FLAG_EXT
def END : UInt32 := 0x22 + FLAG_EXT
def PAGEUP : UInt32 := 0x23 + FLAG_EXT
def PAGEDOWN : UInt32 := 0x24 + FLAG_EXT
def UP : UInt32 := 0x25 + FLAG_EXT
def DOWN : UInt32 := 0x26 + FLAG_EXT
def LEFT : UInt32 := 0x27 + FLAG_EXT
def RIGHT : UInt32 := 0x28 + FLAG_EXT
def PAD_SLASH : UInt32 := 0x2C + FLAG_EXT
def PAD_MINUS : UInt32 := 0x2E + FLAG_EXT
def PAD_PLUS : UInt32 := 0x2F + FLAG_EXT
def PAD_ENTER : UInt32 := 0x30 + FLAG_EXT
def PAD_DOT : UInt32 := 0x31 + FLAG_EXT
def PAD_0 : UInt32 := 0x32 + FLAG_EXT
def PAD_1 : UInt32 := 0x33 + FLAG_EXT
def PAD_2 : UInt32 := 0x34 + FLAG_EXT
def PAD_3 : UInt32 := 0x35 + FLAG_EXT
def PAD_4 : UInt32 := 0x36 + FLAG_EXT
def PAD_5 : UInt32 := 0x37 + FLAG_EXT
def PAD_6 : UInt32 := 0x38 + FLAG_EXT
def PAD_7 : UInt32 := 0x39 + FLAG_EXT
def PAD_8 : UInt32 := 0x3A + FLAG_EXT
def PAD_9 : UInt32 := 0x3B + FLAG_EXT
def PAD_UP : UInt32 := PAD_8
def PAD_DOWN : UInt32 := PAD_2
def PAD_LEFT : UInt32 := PAD_4
def PAD_RIGHT : UInt32 := PAD_6
def PAD_HOME : UInt32 := PAD_7
def PAD_END : UInt32 := PAD_1
def PAD_PAGEUP : UInt32 := PAD_9
def PAD_PAGEDOWN : UInt32 := PAD_3
def PAD_INS : UInt32 := PAD_0
def PAD_MID : UInt32 := PAD_5

/-! ## `keymap` -/

/-- The rows, by scan code: the key without shift, with shift and after
`E0`. -/
def keyrows : List (UInt32 × UInt32 × UInt32) :=
  [ (0, 0, 0), (ESC, ESC, 0), ('1'.val, '!'.val, 0), ('2'.val, '@'.val, 0),
    ('3'.val, '#'.val, 0), ('4'.val, '$'.val, 0), ('5'.val, '%'.val, 0),
    ('6'.val, '^'.val, 0), ('7'.val, '&'.val, 0), ('8'.val, '*'.val, 0),
    ('9'.val, '('.val, 0), ('0'.val, ')'.val, 0), ('-'.val, '_'.val, 0),
    ('='.val, '+'.val, 0), (BACKSPACE, BACKSPACE, 0), (TAB, TAB, 0),
    ('q'.val, 'Q'.val, 0), ('w'.val, 'W'.val, 0), ('e'.val, 'E'.val, 0),
    ('r'.val, 'R'.val, 0), ('t'.val, 'T'.val, 0), ('y'.val, 'Y'.val, 0),
    ('u'.val, 'U'.val, 0), ('i'.val, 'I'.val, 0), ('o'.val, 'O'.val, 0),
    ('p'.val, 'P'.val, 0), ('['.val, 0x7B, 0), (']'.val, 0x7D, 0),
    (ENTER, ENTER, PAD_ENTER), (CTRL_L, CTRL_L, CTRL_R),
    ('a'.val, 'A'.val, 0), ('s'.val, 'S'.val, 0), ('d'.val, 'D'.val, 0),
    ('f'.val, 'F'.val, 0), ('g'.val, 'G'.val, 0), ('h'.val, 'H'.val, 0),
    ('j'.val, 'J'.val, 0), ('k'.val, 'K'.val, 0), ('l'.val, 'L'.val, 0),
    (';'.val, ':'.val, 0), (0x27, 0x22, 0), (0x60, '~'.val, 0),
    (SHIFT_L, SHIFT_L, 0), (0x5C, '|'.val, 0), ('z'.val, 'Z'.val, 0),
    ('x'.val, 'X'.val, 0), ('c'.val, 'C'.val, 0), ('v'.val, 'V'.val, 0),
    ('b'.val, 'B'.val, 0), ('n'.val, 'N'.val, 0), ('m'.val, 'M'.val, 0),
    (','.val, '<'.val, 0), ('.'.val, '>'.val, 0),
    ('/'.val, '?'.val, PAD_SLASH), (SHIFT_R, SHIFT_R, 0),
    ('*'.val, '*'.val, 0), (ALT_L, ALT_L, ALT_R), (' '.val, ' '.val, 0),
    (CAPS_LOCK, CAPS_LOCK, 0), (F1, F1, 0), (F2, F2, 0), (F3, F3, 0),
    (F4, F4, 0), (F5, F5, 0), (F6, F6, 0), (F7, F7, 0), (F8, F8, 0),
    (F9, F9, 0), (F10, F10, 0), (NUM_LOCK, NUM_LOCK, 0),
    (SCROLL_LOCK, SCROLL_LOCK, 0), (PAD_HOME, '7'.val, HOME),
    (PAD_UP, '8'.val, UP), (PAD_PAGEUP, '9'.val, PAGEUP),
    (PAD_MINUS, '-'.val, 0), (PAD_LEFT, '4'.val, LEFT), (PAD_MID, '5'.val, 0),
    (PAD_RIGHT, '6'.val, RIGHT), (PAD_PLUS, '+'.val, 0),
    (PAD_END, '1'.val, END), (PAD_DOWN, '2'.val, DOWN),
    (PAD_PAGEDOWN, '3'.val, PAGEDOWN), (PAD_INS, '0'.val, INSERT),
    (PAD_DOT, '.'.val, DELETE), (0, 0, 0), (0, 0, 0), (0, 0, 0),
    (F11, F11, 0), (F12, F12, 0), (0, 0, 0), (0, 0, 0), (0, 0, GUI_L),
    (0, 0, GUI_R), (0, 0, APPS)] ++
    List.replicate 0x22 (0, 0, 0)

def keymap : List UInt32 :=
  keyrows.flatMap fun row => [row.1, row.2.1, row.2.2]

end LearningLinux.Keyboard
