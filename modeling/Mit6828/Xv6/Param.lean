import Mathlib.Data.BitVec

namespace Mit6828.Xv6

abbrev Byte := BitVec 8

abbrev Word := BitVec 32

def maxopblocks : Nat := 10

def logsize : Nat := maxopblocks * 3

def ndirect : Nat := 11

def nindirect : Nat := 128

def ndindirect : Nat := nindirect * nindirect

def maxfile : Nat := ndirect + nindirect + ndindirect

def bsize : Nat := 512

def bpb : Nat := bsize * 8

def ipb : Nat := 8

attribute [grind unfold] logsize maxopblocks ndirect nindirect bsize bpb ipb

def fssize : Nat := 20000

end Mit6828.Xv6
